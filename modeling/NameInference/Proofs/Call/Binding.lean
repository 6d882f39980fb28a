import NameInference.Proofs.Call.Serving

/-!
# Matching keeps to the rule

Positional arguments serve the first parameters; then only keyword arguments are left, and they
decide all that follows. Matching finds no fault exactly in the arguments that the rule accepts, and
then it gives what the rule gives.
-/

namespace NameInference.Matching

open Argument List

variable {α : Type} {params : List ParamSpec}

section Keywords

/-- The state in which only keyword arguments are left: every parameter in `done` has got something,
none in `qs`. -/
structure OnlyKeywordsLeft (done qs : List ParamSpec) (keys : List (Argument α)) (m : Matching α) :
    Prop where
  rest : m.rest = keys
  faults : m.faults = []
  unmatched : m.unmatched = []
  sawKeyword : m.sawKeyword = false
  sawDouble : m.sawDouble = false
  served : ∀ p ∈ done, m.used.lookup p.name ≠ none
  fresh : ∀ q ∈ qs, m.used.lookup q.name = none

/-- Keyword arguments that serve the parameters `qs` behind the parameters `done`. -/
structure KeywordsFit (done qs : List ParamSpec) (keys : List (Argument α)) : Prop where
  once : keys.Pairwise fun a b => ∀ p ∈ done ++ qs, a.keyword = some p.name →
    b.keyword ≠ some p.name
  free : ∀ a ∈ keys, ∀ p ∈ done, a.keyword ≠ some p.name
  covered : ∀ a ∈ keys, isKnown (done ++ qs) a = false → ∃ q ∈ qs, q.kind = .varKeyword
  complete : ∀ q ∈ qs, q.kind.isVariadic = false → (∀ a ∈ keys, a.keyword ≠ some q.name) →
    q.hasDefault = true

/-- What a parameter gets from keyword arguments alone. -/
def boundByKeyword (params : List ParamSpec) (keys : List (Argument α)) (q : ParamSpec) (i : Nat) :
    BoundParam α :=
  match keys.find? (·.keyword == some q.name) with
  | some a => { param := i, arguments := [a] }
  | none =>
    match q.kind with
    | .varPositional => { param := i }
    | .varKeyword => { param := i, arguments := keys.filter fun a => !isKnown params a }
    | _ => { param := i, fromDefault := true }

variable {done qs : List ParamSpec} {keys : List (Argument α)} {m : Matching α}

/-- Without further parameters, keyword arguments are one too many. -/
private theorem onlyKeywordsLeft_nil (hm : OnlyKeywordsLeft done [] keys m) :
    allFaults done m = [] ↔ KeywordsFit done [] keys := by
  have hkeys : allFaults done m = [] ↔ keys = [] := by
    cases keys <;> simp [allFaults, finalFaults, hm.faults, hm.unmatched, hm.sawKeyword, hm.rest]
  rw [hkeys]
  constructor
  · rintro rfl
    constructor <;> simp
  · intro h
    rw [eq_nil_iff_forall_not_mem]
    intro a ha
    cases hk : isKnown done a
    · obtain ⟨q, hq, _⟩ := h.covered a ha (by simpa using hk)
      simp at hq
    · obtain ⟨p, hp, hap⟩ := isKnown_iff.mp hk
      exact h.free a ha p hp hap

private theorem onlyKeywordsLeft_free (hm : OnlyKeywordsLeft done qs keys m) :
    KeywordsFree (done ++ qs) m.used keys ↔
      (keys.Pairwise fun a b => ∀ p ∈ done ++ qs, a.keyword = some p.name →
        b.keyword ≠ some p.name) ∧ ∀ a ∈ keys, ∀ p ∈ done, a.keyword ≠ some p.name := by
  refine and_congr_right fun _ => ⟨fun h a ha p hp hap => ?_, fun h a ha p hp hap => ?_⟩
  · exact hm.served p hp (h a ha p (mem_append_left _ hp) hap)
  · rcases mem_append.mp hp with hp | hp
    · exact absurd hap (h a ha p hp)
    · exact hm.fresh p hp

/-- In a canonical list the parameter that collects keywords is the last one. -/
private theorem canonical_varKeyword_last {qs : List ParamSpec}
    (hcanonical : ParamSpec.Canonical (done ++ qs)) :
    qs.Pairwise fun p _ => p.kind ≠ .varKeyword := by
  refine (pairwise_append.mp hcanonical.ordered).2.1.imp ?_
  rintro p q ⟨hrank, hsingle⟩ hp
  have hq : q.kind = .varKeyword := by
    rw [hp] at hrank
    cases hk : q.kind <;> simp [hk, ParamKind.rank] at hrank ⊢
  rw [hp, hq] at hsingle
  exact absurd (hsingle rfl) (by decide)

section Free

variable (hm : OnlyKeywordsLeft done qs keys m) (hkeys : ∀ a ∈ keys, a.keyword.isSome = true)
  (hdistinct : ((done ++ qs).map (·.name)).Nodup) (hfree : KeywordsFree (done ++ qs) m.used keys)
  {q : ParamSpec} {i : Nat}

include hm hkeys hdistinct hfree

/-- What the state knows once free keyword arguments have been looked at. -/
private theorem lookup_of_free (hq : q ∈ qs) (hi : (done ++ qs)[i]? = some q) :
    (takeKeywords (done ++ qs) keys m).used.lookup q.name =
      (keys.find? (·.keyword == some q.name)).map fun a => { param := i, arguments := [a] } := by
  rw [(takeKeywords_of_free m hdistinct hkeys hfree).2.2 i q hi, hm.fresh q hq, Option.or_none]

/-- A remaining parameter lacks something exactly if no keyword names it and it has no default. -/
private theorem lacks_of_free (hq : q ∈ qs) :
    (takeKeywords (done ++ qs) keys m).lacks q = false ↔
      (q.kind.isVariadic = false → (∀ a ∈ keys, a.keyword ≠ some q.name) →
        q.hasDefault = true) := by
  obtain ⟨i, hi⟩ := mem_iff_getElem?.mp (mem_append_right done hq)
  have hnone : ((takeKeywords (done ++ qs) keys m).used.lookup q.name).isNone = true ↔
      ∀ a ∈ keys, a.keyword ≠ some q.name := by
    rw [lookup_of_free hm hkeys hdistinct hfree hq hi]
    simp
  rw [lacks, ← Bool.not_eq_true, Bool.and_eq_true, Bool.and_eq_true, hnone]
  cases q.kind.isVariadic <;> cases q.hasDefault <;> simp

/-- Unknown keywords are no fault exactly if a remaining parameter collects them. -/
private theorem unmatched_settledRun {out : Matching α} {j : Nat}
    (hplain : ∀ a ∈ keys, ∀ p ∈ done ++ qs, a.keyword = some p.name → p.kind.isVariadic = false)
    (hrun : SettledRun (takeKeywords (done ++ qs) keys m) qs j out) :
    out.unmatched = [] ↔ ∀ a ∈ keys, isKnown (done ++ qs) a = false →
      ∃ q ∈ qs, q.kind = .varKeyword := by
  have hunmatched := (takeKeywords_frame (done ++ qs) m hkeys).2.2.2
  have hnil : (takeKeywords (done ++ qs) keys m).unmatched = [] ↔
      ∀ a ∈ keys, isKnown (done ++ qs) a = true := by
    rw [hm.unmatched, map_nil, nil_append] at hunmatched
    rw [← map_eq_nil_iff, hunmatched]
    simp
  have hcollects :
    (∃ q ∈ qs, q.kind = .varKeyword ∧
      (takeKeywords (done ++ qs) keys m).used.lookup q.name = none) ↔
      ∃ q ∈ qs, q.kind = .varKeyword := by
    refine exists_congr fun q => and_congr_right fun hq => and_iff_left_of_imp fun hkind => ?_
    obtain ⟨i, hi⟩ := mem_iff_getElem?.mp (mem_append_right done hq)
    rw [lookup_of_free hm hkeys hdistinct hfree hq hi, Option.map_eq_none_iff, find?_eq_none]
    intro a ha hname
    have hvariadic := hplain a ha q (mem_append_right _ hq) (by simpa using hname)
    rw [hkind] at hvariadic
    exact absurd hvariadic (by decide)
  rw [hrun.unmatched, hnil, hcollects]
  constructor
  · rintro (h | h) a ha hk
    · rw [h a ha] at hk
      cases hk
    · exact h
  · intro h
    by_cases hex : ∃ q ∈ qs, q.kind = .varKeyword
    · exact .inr hex
    · exact .inl fun a ha => (Bool.not_eq_false _).mp fun hk => hex (h a ha hk)

/-- A remaining parameter that lacks nothing gets what its name and its kind say. -/
private theorem settled_eq_boundByKeyword (hi : (q, i) ∈ qs.zipIdx done.length)
    (hlacks : (takeKeywords (done ++ qs) keys m).lacks q = false) :
    (takeKeywords (done ++ qs) keys m).settled q i = boundByKeyword (done ++ qs) keys q i := by
  have hq := fst_mem_of_mem_zipIdx hi
  obtain ⟨hle, hget⟩ := mk_mem_zipIdx_iff_le_and_getElem?_sub.mp hi
  have hall : (done ++ qs)[i]? = some q := by rw [getElem?_append_right hle, hget]
  have hlookup := lookup_of_free hm hkeys hdistinct hfree hq hall
  have hunmatched := (takeKeywords_frame (done ++ qs) m hkeys).2.2.2
  rw [hm.unmatched, map_nil, nil_append] at hunmatched
  cases hf : keys.find? (·.keyword == some q.name) with
  | some a =>
    rw [hf] at hlookup
    simp only [settled, hlookup, boundByKeyword, hf, Option.map_some]
  | none =>
    rw [hf] at hlookup
    simp only [lacks, hlookup, Option.map_none, Option.isNone_none, Bool.true_and] at hlacks
    simp only [settled, boundByKeyword, hlookup, hf, Option.map_none, hunmatched]
    cases hk : q.kind <;> simp_all [ParamKind.isVariadic]

end Free

/-- Serving the remaining parameters leaves nothing lacking that was not lacking before. -/
private theorem lacks_settledRun {next out : Matching α} {j : Nat} (hrun : SettledRun next qs j out)
    (hdistinct : ((done ++ qs).map (·.name)).Nodup)
    (hserved : ∀ p ∈ done, next.used.lookup p.name ≠ none) :
    (∀ p ∈ done ++ qs, out.lacks p = false) ↔ ∀ q ∈ qs, next.lacks q = false := by
  rw [map_append] at hdistinct
  have hapart := (nodup_append.mp hdistinct).2.2
  have hdone : ∀ p ∈ done, out.lacks p = false := by
    intro p hp
    have hsame := hrun.others p.name fun q hq =>
      hapart p.name (mem_map_of_mem hp) q.name (mem_map_of_mem hq)
    have hsome : (next.used.lookup p.name).isNone = false := by
      rw [← Bool.not_eq_true, Option.isNone_iff_eq_none]
      exact hserved p hp
    simp only [lacks, hsame, hsome, Bool.false_and]
  have hqs : ∀ q ∈ qs, out.lacks q = next.lacks q := by
    intro q hq
    rw [lacks, hrun.own q hq, lacks]
    cases (next.used.lookup q.name).isNone <;> cases q.kind.isVariadic <;>
      cases q.hasDefault <;> rfl
  constructor
  · intro h q hq
    rw [← hqs q hq]
    exact h q (mem_append_right _ hq)
  · intro h p hp
    rcases mem_append.mp hp with hp | hp
    · exact hdone p hp
    · rw [hqs p hp]
      exact h p hp

/-- From the state in which only keyword arguments are left, no fault is found exactly if the
keyword arguments fit the remaining parameters, and then each of these gets what its name and its
kind say. -/
theorem onlyKeywordsLeft_run (hm : OnlyKeywordsLeft done qs keys m)
    (hkeys : ∀ a ∈ keys, a.keyword.isSome = true) (hcanonical : ParamSpec.Canonical (done ++ qs))
    (hplain : ∀ a ∈ keys, ∀ p ∈ done ++ qs, a.keyword = some p.name → p.kind.isVariadic = false) :
    (allFaults (done ++ qs) ((qs.zipIdx done.length).foldl (serve (done ++ qs) true) m) = [] ↔
      KeywordsFit done qs keys) ∧
    (KeywordsFit done qs keys → ((qs.zipIdx done.length).foldl (serve (done ++ qs) true) m).bound =
      m.bound ++ (qs.zipIdx done.length).map fun e =>
        boundByKeyword (done ++ qs) keys e.1 e.2) := by
  by_cases hqs : qs = []
  · subst hqs
    simpa using onlyKeywordsLeft_nil hm
  obtain ⟨hrest, hbound, _, _⟩ := takeKeywords_frame (done ++ qs) m hkeys
  have hdistinct := hcanonical.distinct
  have hdistinct' : (qs.map (·.name)).Nodup := by
    rw [map_append] at hdistinct
    exact (nodup_append.mp hdistinct).2.1
  have hrun := foldl_serve_settled (done ++ qs) hrest qs done.length
    (fun q hq => hcanonical.named q (mem_append_right _ hq)) hdistinct'
      (canonical_varKeyword_last hcanonical)
  have hstart : (qs.zipIdx done.length).foldl (serve (done ++ qs) true) m =
      (qs.zipIdx done.length).foldl (serve (done ++ qs) true)
        (takeKeywords (done ++ qs) keys m) := by
    obtain ⟨q, rest, rfl⟩ := exists_cons_of_ne_nil hqs
    rw [zipIdx_cons, foldl_cons, foldl_cons, serve_takeKeywords, hm.rest]
    rwa [hm.rest]
  rw [hstart]
  generalize (qs.zipIdx done.length).foldl (serve (done ++ qs) true)
    (takeKeywords (done ++ qs) keys m) = out at hrun
  by_cases hfree : KeywordsFree (done ++ qs) m.used keys
  case neg =>
    have hfaults : out.faults ≠ [] :=
      fun h => takeKeywords_faults_of_not_free m hkeys hfree (hrun.faults.mp h).1
    have hfit : ¬KeywordsFit done qs keys :=
      fun h => hfree ((onlyKeywordsLeft_free hm).mpr ⟨h.once, h.free⟩)
    simp [allFaults, hfaults, hfit]
  case pos =>
    obtain ⟨hfaults, hdouble, hlookup⟩ := takeKeywords_of_free m hdistinct hkeys hfree
    have hserved : ∀ p ∈ done, (takeKeywords (done ++ qs) keys m).used.lookup p.name ≠ none := by
      intro p hp
      obtain ⟨i, hi⟩ := mem_iff_getElem?.mp (mem_append_left qs hp)
      rw [hlookup i p hi, ne_eq, Option.or_eq_none_iff]
      exact fun h => hm.served p hp h.2
    have hclean : allFaults (done ++ qs) out = [] ↔
        out.unmatched = [] ∧ ∀ q ∈ qs, (takeKeywords (done ++ qs) keys m).lacks q = false := by
      rw [allFaults_eq_nil_iff hdistinct hrun.rest
        (hrun.sawDouble.trans (hdouble.trans hm.sawDouble)), hrun.faults,
        lacks_settledRun hrun hdistinct hserved, hrun.sawKeyword, hfaults, hm.faults]
      cases (takeKeywords (done ++ qs) keys m).sawKeyword <;> simp [and_comm]
    have hfit : KeywordsFit done qs keys ↔
        out.unmatched = [] ∧ ∀ q ∈ qs, (takeKeywords (done ++ qs) keys m).lacks q = false := by
      have hsplit := (onlyKeywordsLeft_free hm).mp hfree
      have hlacks := fun q (hq : q ∈ qs) => lacks_of_free hm hkeys hdistinct hfree hq
      rw [unmatched_settledRun hm hkeys hdistinct hfree hplain hrun, forall₂_congr hlacks]
      exact ⟨fun h => ⟨h.covered, h.complete⟩, fun h => ⟨hsplit.1, hsplit.2, h.1, h.2⟩⟩
    refine ⟨hclean.trans hfit.symm, fun h => ?_⟩
    rw [hrun.bound, hbound]
    congr 1
    exact map_congr_left fun e he => settled_eq_boundByKeyword hm hkeys hdistinct hfree he
      ((hfit.mp h).2 e.1 (fst_mem_of_mem_zipIdx he))

end Keywords

section Rule

/-- Positional arguments and then keyword arguments, each of which may name its parameter. -/
structure Orderly (params : List ParamSpec) (given keys : List (Argument α)) : Prop where
  canonical : ParamSpec.Canonical params
  unnamed : ∀ a ∈ given, a.keyword = none
  named : ∀ a ∈ keys, a.keyword.isSome = true
  takes : ∀ a ∈ keys, ∀ p ∈ params, a.keyword = some p.name → p.takesKeyword

/-- No fault is found exactly if the rule accepts the arguments, and then the rule says what every
parameter gets. -/
def KeepsRule (params : List ParamSpec) (items : List (Argument α)) : Prop :=
  ((run params true items).2 = [] ↔ Accepts params items) ∧
    (Accepts params items → (run params true items).1 = params.mapIdx (boundByRule params items))

variable {given keys : List (Argument α)} {done qs front back rest : List ParamSpec}
  {star : ParamSpec}

/-- How a canonical list begins: `done` are the parameters that `n` positional arguments serve. -/
structure ServedBy (n : Nat) (done qs : List ParamSpec) : Prop where
  kinds : ∀ p ∈ done, p.kind.isPositional = true ∨ p.kind = .varPositional
  positional : ∀ i p, (done ++ qs)[i]? = some p → p.kind.isPositional = true →
    (i < done.length ↔ i < n)
  surplus : ∀ i p, (done ++ qs)[i]? = some p → p.kind = .varPositional → done.length ≤ i → n ≤ i
  room : n ≤ (done ++ qs).countP (·.kind.isPositional) ∨ ∃ p ∈ done ++ qs, p.kind = .varPositional

/-- The rule for the whole lists is the rule for the keyword arguments and the parameters behind the
served ones. -/
theorem accepts_iff_keywordsFit (hs : ServedBy given.length done qs)
    (ho : Orderly (done ++ qs) given keys) :
    Accepts (done ++ qs) (given ++ keys) ↔ KeywordsFit done qs keys := by
  have hpos := positional_append ho.unnamed ho.named
  have hnam := named_append ho.unnamed ho.named
  constructor
  · intro h
    refine ⟨hnam ▸ h.once, fun a ha p hp hap => ?_, fun a ha hk => ?_, fun q hq hv hno => ?_⟩
    · obtain ⟨i, hlt, rfl⟩ := mem_iff_getElem.mp hp
      have hget : (done ++ qs)[i]? = some done[i] := by
        rw [getElem?_append_left hlt, getElem?_eq_getElem hlt]
      have hkind := ho.takes a ha _ (mem_append_left _ hp) hap
      have hpositional : done[i].kind.isPositional = true := by
        rcases hs.kinds _ hp with h | h
        · exact h
        · rcases hkind with hk | hk <;> rw [hk] at h <;> cases h
      have hi := (hs.positional i _ hget hpositional).mp hlt
      rcases h.free a (hnam.symm ▸ ha) i _ hget hap with ⟨_, hle⟩ | hk
      · rw [hpos] at hle
        omega
      · rw [hk] at hpositional
        cases hpositional
    · have hno : ∀ p ∈ done ++ qs, a.keyword ≠ some p.name := fun p hp hap => by
        rw [isKnown_iff.mpr ⟨p, hp, hap⟩] at hk
        cases hk
      obtain ⟨p, hp, hkind⟩ := h.covered a (hnam.symm ▸ ha) hno
      rcases mem_append.mp hp with hp | hp
      · rcases hs.kinds p hp with h | h <;> rw [hkind] at h <;> cases h
      · exact ⟨p, hp, hkind⟩
    · obtain ⟨i, hlt, rfl⟩ := mem_iff_getElem.mp hq
      have hget : (done ++ qs)[done.length + i]? = some qs[i] := by
        rw [getElem?_append_right (by omega), Nat.add_sub_cancel_left, getElem?_eq_getElem hlt]
      refine h.served _ _ hget hv ?_ (hnam.symm ▸ hno)
      rintro ⟨hp, hi⟩
      have := (hs.positional _ _ hget hp).mpr (hpos ▸ hi)
      omega
  · intro h
    refine ⟨hpos.symm ▸ hs.room, ?_, hnam.symm ▸ h.once, ?_, ?_⟩
    · intro a ha i p hget hap
      rw [hnam] at ha
      rcases ho.takes a ha p (mem_of_getElem? hget) hap with hk | hk
      · refine .inl ⟨hk, Nat.le_of_not_lt fun hi => ?_⟩
        have hlt := (hs.positional i p hget (by rw [hk]; rfl)).mpr (hpos ▸ hi)
        rw [getElem?_append_left hlt] at hget
        exact h.free a ha p (mem_of_getElem? hget) hap
      · exact .inr hk
    · intro a ha hno
      rw [hnam] at ha
      have hk : isKnown (done ++ qs) a = false := by
        rw [← Bool.not_eq_true, isKnown_iff]
        rintro ⟨p, hp, hap⟩
        exact hno p hp hap
      obtain ⟨q, hq, hkind⟩ := h.covered a ha hk
      exact ⟨q, mem_append_right _ hq, hkind⟩
    · intro i p hget hv hnot hno
      rw [hnam] at hno
      by_cases hlt : i < done.length
      · rw [getElem?_append_left hlt] at hget
        rcases hs.kinds p (mem_of_getElem? hget) with hp | hp
        · have hi := (hs.positional i p (by rw [getElem?_append_left hlt, hget]) hp).mp hlt
          exact absurd ⟨hp, by rwa [hpos]⟩ hnot
        · rw [hp] at hv
          cases hv
      · rw [getElem?_append_right (Nat.le_of_not_lt hlt)] at hget
        exact h.complete p (mem_of_getElem? hget) hv hno

/-- A parameter behind the served ones gets what the rule gives it. -/
theorem boundByKeyword_eq_boundByRule (hs : ServedBy given.length done qs)
    (ho : Orderly (done ++ qs) given keys) {q : ParamSpec} {i : Nat}
    (hi : (q, i) ∈ qs.zipIdx done.length) :
    boundByKeyword (done ++ qs) keys q i = boundByRule (done ++ qs) (given ++ keys) i q := by
  have hpos := positional_append ho.unnamed ho.named
  have hnam := named_append ho.unnamed ho.named
  obtain ⟨hle, hget⟩ := mk_mem_zipIdx_iff_le_and_getElem?_sub.mp hi
  have hall : (done ++ qs)[i]? = some q := by rw [getElem?_append_right hle, hget]
  have hq : q ∈ done ++ qs := mem_append_right _ (fst_mem_of_mem_zipIdx hi)
  have hextra : (keys.filter fun a => !isKnown (done ++ qs) a) = Argument.extra (done ++ qs)
      (given ++ keys) := by
    rw [Argument.extra, hnam]
    exact filter_congr fun a _ => by simp [isKnown, not_any_eq_all_not, bne]
  have hvariadic : q.kind.isVariadic = true → keys.find? (·.keyword == some q.name) = none := by
    intro hv
    rw [find?_eq_none]
    intro a ha hname
    have := ParamSpec.isVariadic_of_takesKeyword (ho.takes a ha q hq (by simpa using hname))
    rw [hv] at this
    cases this
  cases hk : q.kind with
  | varPositional =>
    have hdrop : given.drop i = [] := drop_eq_nil_of_le (hs.surplus i q hall hk hle)
    simp only [boundByKeyword, boundByRule, hk, hpos, hdrop, hvariadic (by rw [hk]; rfl)]
  | varKeyword =>
    simp only [boundByKeyword, boundByRule, hk, hextra, hvariadic (by rw [hk]; rfl)]
  | keywordOnly =>
    cases hf : keys.find? (·.keyword == some q.name) <;>
      simp only [boundByKeyword, boundByRule, boundByRule.ofName, hk, hnam, hf]
  | positionalOnly | positionalOrKeyword =>
    have hn : given[i]? = none := by
      rw [getElem?_eq_none_iff]
      have := hs.positional i q hall (by rw [hk]; rfl)
      omega
    cases hf : keys.find? (·.keyword == some q.name) <;>
      simp only [boundByKeyword, boundByRule, boundByRule.ofName, hk, hpos, hnam, hn, hf]

/-- A positional parameter that a positional argument serves gets what the rule gives it. -/
private theorem servedEntries_eq_boundByRule {items rest : List (Argument α)}
    (hpos : Argument.positional items = given ++ rest) (hlen : front.length = given.length)
    (hkind : ∀ p ∈ front, p.kind.isPositional = true) :
    (servedEntries front 0 given).map (·.2) = front.zipIdx.map fun e =>
      boundByRule params items e.2 e.1 := by
  apply ext_getElem?
  intro i
  by_cases hi : i < front.length
  · have hg : i < given.length := hlen ▸ hi
    have hget : (Argument.positional items)[i]? = some given[i] := by
      rw [hpos, getElem?_append_left hg, getElem?_eq_getElem]
    have hrule : boundByRule params items i front[i] = { param := i, arguments := [given[i]] } := by
      have hpositional := hkind _ (getElem_mem hi)
      cases hk : front[i].kind with
      | positionalOnly | positionalOrKeyword => simp only [boundByRule, hk, hget]
      | varPositional | keywordOnly | varKeyword =>
        rw [hk] at hpositional
        cases hpositional
    simp [servedEntries, List.zip, getElem?_zipWith, getElem?_eq_getElem hi, getElem?_eq_getElem hg,
      hrule]
  · rw [getElem?_eq_none (by simp [servedEntries]; omega), getElem?_eq_none (by simp; omega)]

/-- A list in canonical order begins with its positional parameters. -/
private theorem ordered_split {params : List ParamSpec}
    (hordered : params.Pairwise fun p q => p.kind.rank ≤ q.kind.rank) :
    ∃ front back, params = front ++ back ∧ (∀ p ∈ front, p.kind.isPositional = true) ∧
      (∀ p ∈ back, p.kind.isPositional = false) := by
  have hpositional (kind : ParamKind) : kind.isPositional = decide (kind.rank < 2) := by
    cases kind <;> rfl
  obtain ⟨front, back, hsplit, hfront, hback⟩ := exists_split_of_pairwise hordered 2
  refine ⟨front, back, hsplit, fun p hp => ?_, fun p hp => ?_⟩ <;> rw [hpositional]
  · exact decide_eq_true (hfront p hp)
  · exact decide_eq_false (Nat.not_lt.mpr (hback p hp))

private theorem lt_of_isPositional (hback : ∀ p ∈ back, p.kind.isPositional = false) {i : Nat}
    {p : ParamSpec} (hget : (front ++ back)[i]? = some p) (hp : p.kind.isPositional = true) :
    i < front.length := by
  apply Nat.lt_of_not_le
  intro hle
  rw [getElem?_append_right hle] at hget
  rw [hback p (mem_of_getElem? hget)] at hp
  cases hp

private theorem countP_isPositional (hfront : ∀ p ∈ front, p.kind.isPositional = true)
    (hback : ∀ p ∈ back, p.kind.isPositional = false) :
    (front ++ back).countP (·.kind.isPositional) = front.length := by
  have h₁ : front.countP (·.kind.isPositional) = front.length := countP_eq_length.mpr hfront
  have h₂ : back.countP (·.kind.isPositional) = 0 := countP_eq_zero.mpr (by simpa using hback)
  rw [countP_append, h₁, h₂, Nat.add_zero]

/-- With enough parameters, positional arguments serve the first ones. -/
private theorem servedBy_take {n : Nat} (hn : n ≤ front.length)
    (hfront : ∀ p ∈ front, p.kind.isPositional = true)
    (hback : ∀ p ∈ back, p.kind.isPositional = false) :
    ServedBy n (front.take n) (front.drop n ++ back) := by
  have hall : front.take n ++ (front.drop n ++ back) = front ++ back := by
    rw [← append_assoc, take_append_drop]
  have hlen : (front.take n).length = n := length_take_of_le hn
  refine ⟨fun p hp => .inl (hfront p (mem_of_mem_take hp)), ?_, ?_, .inl ?_⟩
  · intro i p _ _
    rw [hlen]
  · intro i p _ _ hle
    rwa [hlen] at hle
  · rwa [hall, countP_isPositional hfront hback]

/-- With more arguments than parameters, they serve all positional parameters and the one that
collects the surplus. -/
private theorem servedBy_star {n : Nat} (hn : front.length < n)
    (hfront : ∀ p ∈ front, p.kind.isPositional = true) (hstar : star.kind = .varPositional)
    (hrest : ∀ p ∈ rest, p.kind.isPositional = false)
    (hsingle : ∀ p ∈ rest, p.kind ≠ .varPositional) :
    ServedBy n (front ++ [star]) rest := by
  refine ⟨?_, ?_, ?_, .inr ⟨star, by simp, hstar⟩⟩
  · intro p hp
    rcases mem_append.mp hp with hp | hp
    · exact .inl (hfront p hp)
    · exact .inr (mem_singleton.mp hp ▸ hstar)
  · intro i p hget hp
    rw [append_assoc, singleton_append] at hget
    have hback : ∀ q ∈ star :: rest, q.kind.isPositional = false :=
      forall_mem_cons.mpr ⟨by rw [hstar]; rfl, hrest⟩
    have := lt_of_isPositional hback hget hp
    simp only [length_append, length_singleton]
    omega
  · intro i p hget hp hle
    rw [getElem?_append_right hle] at hget
    exact absurd hp (hsingle p (mem_of_getElem? hget))

private theorem map_fst_servedEntries (given : List (Argument α)) (k : Nat)
    (hlen : front.length = given.length) :
    (servedEntries front k given).map (·.1) = front.map (·.name) := by
  induction front generalizing given k with
  | nil => simp [servedEntries]
  | cons p front ih =>
    cases given with
    | nil => simp at hlen
    | cons a given =>
      have := ih given (k + 1) (by simpa using hlen)
      simpa [servedEntries] using this

private theorem lookup_servedEntries (hlen : front.length = given.length) (name : Text) :
    ((servedEntries front 0 given).reverse ++ []).lookup name = none ↔ ∀ p ∈ front, p.name ≠
      name := by
  have hnames := map_fst_servedEntries given 0 hlen
  rw [append_nil, lookup_eq_none_iff]
  constructor
  · intro h p hp he
    have hmem : p.name ∈ (servedEntries front 0 given).map (·.1) := hnames ▸ mem_map_of_mem hp
    obtain ⟨e, hmem, heq⟩ := mem_map.mp hmem
    have := h e (mem_reverse.mpr hmem)
    simp [heq, he] at this
  · intro h e he
    have hmem : e.1 ∈ front.map (·.name) := hnames ▸ mem_map_of_mem (mem_reverse.mp he)
    obtain ⟨p, hp, heq⟩ := mem_map.mp hmem
    simpa using fun hn => h p hp (heq.trans hn.symm)

/-- Matching keeps to the rule once it does so up to the state in which only keyword arguments are
left. -/
private theorem keepsRule_of_onlyKeywordsLeft {m : Matching α} (hs : ServedBy given.length done qs)
    (ho : Orderly (done ++ qs) given keys) (hm : OnlyKeywordsLeft done qs keys m)
    (hfold : done.zipIdx.foldl (serve (done ++ qs) true) { rest := given ++ keys } = m)
    (hbound : m.bound = done.zipIdx.map fun e => boundByRule (done ++ qs) (given ++ keys) e.2 e.1) :
    KeepsRule (done ++ qs) (given ++ keys) := by
  have hplain := fun a ha p hp hap => ParamSpec.isVariadic_of_takesKeyword (ho.takes a ha p hp hap)
  obtain ⟨hclean, hserved⟩ := onlyKeywordsLeft_run hm ho.named ho.canonical hplain
  rw [KeepsRule, accepts_iff_keywordsFit hs ho]
  have hrun : (done ++ qs).zipIdx.foldl (serve (done ++ qs) true) { rest := given ++ keys } =
      (qs.zipIdx done.length).foldl (serve (done ++ qs) true) m := by
    rw [zipIdx_append, foldl_append, hfold, Nat.zero_add]
  refine ⟨?_, fun hfit => ?_⟩
  · rw [← hclean]
    simp only [run, hrun, allFaults]
  · have hresult : (run (done ++ qs) true (given ++ keys)).1 =
        ((qs.zipIdx done.length).foldl (serve (done ++ qs) true) m).bound := by
      simp only [run, hrun]
    rw [hresult, hserved hfit, hbound, mapIdx_eq_zipIdx_map, zipIdx_append, map_append,
      Nat.zero_add]
    congr 1
    exact map_congr_left fun e he => boundByKeyword_eq_boundByRule hs ho he

/-- The rule holds of every call whose positional arguments find a parameter each. -/
private theorem keepsRule_of_enough_params (ho : Orderly (front ++ back) given keys)
    (hn : given.length ≤ front.length) (hfront : ∀ p ∈ front, p.kind.isPositional = true)
    (hback : ∀ p ∈ back, p.kind.isPositional = false) :
    KeepsRule (front ++ back) (given ++ keys) := by
  have hall : front.take given.length ++ (front.drop given.length ++ back) = front ++ back := by
    rw [← append_assoc, take_append_drop]
  have hlen : (front.take given.length).length = given.length := length_take_of_le hn
  have hkind : ∀ p ∈ front.take given.length, p.kind.isPositional = true :=
    fun p hp => hfront p (mem_of_mem_take hp)
  have hs := servedBy_take hn hfront hback
  rw [← hall] at ho ⊢
  generalize front.take given.length = done, front.drop given.length ++ back = qs at *
  have hdistinct := ho.canonical.distinct
  rw [map_append, nodup_append] at hdistinct
  have hfold := foldl_serve_positional (done ++ qs) (m := { rest := given ++ keys }) 0 rfl hlen
    hkind ho.unnamed (fun p hp => ho.canonical.named p (mem_append_left _ hp)) hdistinct.1 (by simp)
  refine keepsRule_of_onlyKeywordsLeft hs ho ?_ hfold ?_
  · refine ⟨rfl, rfl, rfl, rfl, rfl, fun p hp hnone => ?_, fun q hq => ?_⟩
    · exact (lookup_servedEntries hlen _).mp hnone p hp rfl
    · exact (lookup_servedEntries hlen _).mpr fun p hp =>
        hdistinct.2.2 _ (mem_map_of_mem hp) _ (mem_map_of_mem hq)
  · have hpos : Argument.positional (given ++ keys) = given ++ [] := by
      rw [positional_append ho.unnamed ho.named, append_nil]
    simpa using servedEntries_eq_boundByRule hpos hlen hkind

/-- The parameter that collects the surplus takes all positional arguments in front. -/
private theorem serve_star {m : Matching α} {i : Nat} (hstar : star.kind = .varPositional)
    (hm : m.rest = given ++ keys) (hne : given ≠ []) (hgiven : ∀ a ∈ given, a.keyword = none)
    (hkeys : ∀ a ∈ keys, a.keyword.isSome = true) (hfresh : m.used.lookup star.name = none) :
    serve params true m (star, i) = { m with rest := keys }.bind star
      { param := i, arguments := given } := by
  have htake : takeKeywords params m.rest m = m := by
    obtain ⟨a, rest, rfl⟩ := exists_cons_of_ne_nil hne
    rw [hm, cons_append, takeKeywords, hgiven a mem_cons_self, ← cons_append, ← hm]
  have hwhile : (given ++ keys).takeWhile (·.keyword.isNone) = given := by
    rw [takeWhile_append_of_pos fun a ha => by simp [hgiven a ha]]
    cases keys with
    | nil => simp
    | cons a keys =>
      have := hkeys a mem_cons_self
      rw [Option.isSome_iff_ne_none, ne_eq, ← Option.isNone_iff_eq_none] at this
      rw [takeWhile_cons, if_neg this, append_nil]
  unfold serve
  simp only [htake, hfresh]
  simp only [serveNext, hstar, hm, hwhile, drop_left]

/-- The rule holds of every call with a surplus of positional arguments that a parameter collects.
-/
private theorem keepsRule_of_star (ho : Orderly (front ++ [star] ++ rest) given keys)
    (hn : front.length < given.length) (hfront : ∀ p ∈ front, p.kind.isPositional = true)
    (hstar : star.kind = .varPositional) (hrest : ∀ p ∈ rest, p.kind.isPositional = false)
    (hsingle : ∀ p ∈ rest, p.kind ≠ .varPositional) :
    KeepsRule (front ++ [star] ++ rest) (given ++ keys) := by
  have hs := servedBy_star hn hfront hstar hrest hsingle
  obtain ⟨served, surplus, rfl, hlen⟩ :
      ∃ served surplus, given = served ++ surplus ∧ front.length = served.length :=
    ⟨given.take front.length, given.drop front.length, (take_append_drop _ _).symm,
      (length_take_of_le (Nat.le_of_lt hn)).symm⟩
  have hne : surplus ≠ [] := by
    rintro rfl
    simp [hlen] at hn
  have hdistinct := ho.canonical.distinct
  rw [map_append, map_append, nodup_append, nodup_append] at hdistinct
  obtain ⟨⟨hdistinct, _, hapart⟩, _, hbehind⟩ := hdistinct
  have hname : star.name ≠ [] := ho.canonical.named star (by simp)
  have hstarFront : ∀ p ∈ front, p.name ≠ star.name :=
    fun p hp => hapart _ (mem_map_of_mem hp) _ (by simp)
  have hfirst := foldl_serve_positional (front ++ [star] ++ rest)
    (m := { rest := served ++ surplus ++ keys }) 0 (append_assoc _ _ _) hlen hfront
    (fun a ha => ho.unnamed a (mem_append_left _ ha))
    (fun p hp => ho.canonical.named p (by simp [hp])) hdistinct (by simp)
  have hfold : (front ++ [star]).zipIdx.foldl (serve (front ++ [star] ++ rest) true)
      { rest := served ++ surplus ++ keys } =
      { rest := keys
        used := (star.name, { param := front.length, arguments := surplus }) ::
          (servedEntries front 0 served).reverse
        bound := (servedEntries front 0 served).map (·.2) ++
          [{ param := front.length, arguments := surplus }] } := by
    rw [zipIdx_append, foldl_append, hfirst, Nat.zero_add, zipIdx_cons, zipIdx_nil, foldl_cons,
      foldl_nil, serve_star hstar rfl hne (fun a ha => ho.unnamed a (mem_append_right _ ha))
      ho.named ((lookup_servedEntries hlen _).mpr hstarFront)]
    simp [bind, hname]
  refine keepsRule_of_onlyKeywordsLeft hs ho ?_ hfold ?_
  · refine ⟨rfl, rfl, rfl, rfl, rfl, fun p hp => ?_, fun q hq => ?_⟩
    · rcases mem_append.mp hp with hp | hp
      · rw [lookup_cons_of_ne (hstarFront p hp)]
        exact fun hnone => (lookup_servedEntries hlen _).mp (by rwa [append_nil]) p hp rfl
      · rw [mem_singleton.mp hp, lookup_cons_same]
        simp
    · have hq' : ∀ p ∈ front ++ [star], p.name ≠ q.name := fun p hp =>
        hbehind _ (map_append ▸ mem_map_of_mem hp) _ (mem_map_of_mem hq)
      rw [lookup_cons_of_ne (hq' star (by simp)).symm,
        ← append_nil (servedEntries front 0 served).reverse]
      exact (lookup_servedEntries hlen _).mpr fun p hp => hq' p (mem_append_left _ hp)
  · have hpos : Argument.positional (served ++ surplus ++ keys) = served ++ surplus :=
      positional_append ho.unnamed ho.named
    have hsurplus : (served ++ surplus).drop front.length = surplus := by rw [hlen, drop_left]
    have hrule : boundByRule (front ++ [star] ++ rest) (served ++ surplus ++ keys)
        front.length star = { param := front.length, arguments := surplus } := by
      simp only [boundByRule, hstar, hpos, hsurplus]
    rw [zipIdx_append, map_append, ← servedEntries_eq_boundByRule hpos hlen hfront]
    simp only [zipIdx_cons, zipIdx_nil, map_cons, map_nil, Nat.zero_add, hrule]

/-- A surplus of positional arguments that no parameter collects is a fault. -/
private theorem run_of_no_star (keys : List (Argument α)) (hn : front.length < given.length)
    (hfront : ∀ p ∈ front, p.kind.isPositional = true)
    (hback : ∀ p ∈ back, p.kind = .keywordOnly ∨ p.kind = .varKeyword)
    (hgiven : ∀ a ∈ given, a.keyword = none) (hcanonical : ParamSpec.Canonical (front ++ back)) :
    (run (front ++ back) true (given ++ keys)).2 ≠ [] := by
  have hdistinct := hcanonical.distinct
  rw [map_append, nodup_append] at hdistinct
  have hrest : ({ rest := given ++ keys } : Matching α).rest =
      given.take front.length ++ (given.drop front.length ++ keys) := by
    rw [← append_assoc, take_append_drop]
  have hfirst := foldl_serve_positional (front ++ back) 0 hrest
    (length_take_of_le (Nat.le_of_lt hn)).symm hfront
    (fun a ha => hgiven a (mem_of_mem_take ha))
    (fun p hp => hcanonical.named p (mem_append_left _ hp)) hdistinct.1 (by simp)
  have hstuck : Stuck
      (front.zipIdx.foldl (serve (front ++ back) true) { rest := given ++ keys }) := by
    rw [hfirst]
    refine .inr ⟨given[front.length], given.drop (front.length + 1) ++ keys, ?_,
      hgiven _ (getElem_mem _)⟩
    rw [drop_eq_getElem_cons hn, cons_append]
  simp only [run, zipIdx_append, foldl_append]
  exact allFaults_stuck hstuck _ fun e he => hback e.1 (fst_mem_of_mem_zipIdx he)

/-- Behind the positional parameters the one that collects their surplus comes first, and there is
only one. -/
private theorem star_first
    (hordered : back.Pairwise fun p q => p.kind.rank ≤ q.kind.rank ∧
      (p.kind = q.kind → p.kind.isVariadic = false))
    (hback : ∀ p ∈ back, p.kind.isPositional = false)
    (hstar : ∃ p ∈ back, p.kind = .varPositional) :
    ∃ star rest, back = star :: rest ∧ star.kind = .varPositional ∧ ∀ p ∈ rest, p.kind ≠
      .varPositional := by
  obtain ⟨p, hp, hkind⟩ := hstar
  cases back with
  | nil => simp at hp
  | cons star rest =>
    obtain ⟨hhead, _⟩ := pairwise_cons.mp hordered
    have hstar : star.kind = .varPositional := by
      rcases mem_cons.mp hp with rfl | hp
      · exact hkind
      · have hrank := (hhead p hp).1
        have hpositional := hback star mem_cons_self
        rw [hkind] at hrank
        cases hk : star.kind <;> simp_all [ParamKind.rank, ParamKind.isPositional]
    refine ⟨star, rest, rfl, hstar, fun q hq hqk => ?_⟩
    have := (hhead q hq).2 (hstar.trans hqk.symm)
    rw [hstar] at this
    cases this

/-- Matching finds no fault exactly in the arguments that the language's rule accepts, and then it
gives every parameter what the rule gives it. -/
theorem run_eq_rule {params : List ParamSpec} (hcanonical : ParamSpec.Canonical params)
    (hgiven : ∀ a ∈ given, a.keyword = none) (hkeys : ∀ a ∈ keys, a.keyword.isSome = true)
    (htakes : ∀ a ∈ keys, ∀ p ∈ params, a.keyword = some p.name → p.takesKeyword) :
    ((run params true (given ++ keys)).2 = [] ↔ Accepts params (given ++ keys)) ∧
      (Accepts params (given ++ keys) →
        (run params true (given ++ keys)).1 = params.mapIdx
          (boundByRule params (given ++ keys))) := by
  change KeepsRule params (given ++ keys)
  have ho : Orderly params given keys := ⟨hcanonical, hgiven, hkeys, htakes⟩
  obtain ⟨front, back, rfl, hfront, hback⟩ := ordered_split (hcanonical.ordered.imp And.left)
  rcases Nat.lt_or_ge front.length given.length with hn | hn
  · by_cases hstar : ∃ p ∈ back, p.kind = .varPositional
    · obtain ⟨star, rest, rfl, hkind, hsingle⟩ :=
        star_first (pairwise_append.mp hcanonical.ordered).2.1 hback hstar
      rw [← singleton_append, ← append_assoc] at ho ⊢
      exact keepsRule_of_star ho hn hfront hkind
        (fun p hp => hback p (mem_cons_of_mem _ hp)) hsingle
    · have hkinds : ∀ p ∈ back, p.kind = .keywordOnly ∨ p.kind = .varKeyword := by
        intro p hp
        have hpositional := hback p hp
        have hno : p.kind ≠ .varPositional := fun h => hstar ⟨p, hp, h⟩
        cases hk : p.kind <;> simp_all [ParamKind.isPositional]
      have hreject : ¬Accepts (front ++ back) (given ++ keys) := by
        intro h
        rcases h.room with hle | ⟨p, hp, hkind⟩
        · rw [positional_append hgiven hkeys, countP_isPositional hfront hback] at hle
          omega
        · rcases mem_append.mp hp with hp | hp
          · have := hfront p hp
            rw [hkind] at this
            cases this
          · exact hstar ⟨p, hp, hkind⟩
      have hfault := run_of_no_star keys hn hfront hkinds hgiven hcanonical
      exact ⟨⟨fun h => absurd h hfault, fun h => absurd h hreject⟩, fun h => absurd h hreject⟩
  · exact keepsRule_of_enough_params ho hn hfront hback

end Rule

end NameInference.Matching
