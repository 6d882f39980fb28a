import NameInference.Proofs.Call.Rule

/-!
# Serving one parameter after the other

What matching does while positional arguments are in front, while keyword arguments are taken out of
the way and when no argument is left, each as one lemma about a parameter and one about a run of
parameters.
-/

namespace NameInference.Matching

open List

variable {α : Type} {params : List ParamSpec}

theorem lookup_cons_of_ne {β : Type} {name other : Text} {value : β} {entries : List (Text × β)}
    (h : name ≠ other) : ((other, value) :: entries).lookup name = entries.lookup name := by
  simp only [lookup_cons, beq_false_of_ne h]

theorem lookup_cons_same {β : Type} {name : Text} {value : β} {entries : List (Text × β)} :
    ((name, value) :: entries).lookup name = some value := by
  simp only [lookup_cons, BEq.rfl]

/-- What positional parameters, numbered from `k` on, get from as many positional arguments. -/
def servedEntries (front : List ParamSpec) (k : Nat) (given : List (Argument α)) :
    List (Text × BoundParam α) :=
  ((front.zipIdx k).zip given).map fun e => (e.1.1.name, { param := e.1.2, arguments := [e.2] })

/-- A positional parameter takes the positional argument in front. -/
theorem serve_positional {m : Matching α} {p : ParamSpec} {i : Nat} {a : Argument α}
    {rest : List (Argument α)} (hm : m.rest = a :: rest) (ha : a.keyword = none)
    (hkind : p.kind.isPositional = true) (hfresh : m.used.lookup p.name = none) :
    serve params true m (p, i) = { m with rest }.bind p { param := i, arguments := [a] } := by
  have htake : takeKeywords params m.rest m = m := by
    rw [hm, takeKeywords, ha, ← hm]
  unfold serve
  simp only [htake, hfresh]
  cases hk : p.kind <;> simp only [hk, ParamKind.isPositional, Bool.false_eq_true] at hkind <;>
    simp only [serveNext, hk, hm]

/-- Positional parameters take the positional arguments in front, one each. -/
theorem foldl_serve_positional (params : List ParamSpec) {front : List ParamSpec}
    {given tail : List (Argument α)} {m : Matching α} (k : Nat) (hm : m.rest = given ++ tail)
    (hlen : front.length = given.length) (hkind : ∀ p ∈ front, p.kind.isPositional = true)
    (hgiven : ∀ a ∈ given, a.keyword = none) (hnamed : ∀ p ∈ front, p.name ≠ [])
    (hdistinct : (front.map (·.name)).Nodup) (hfresh : ∀ p ∈ front, m.used.lookup p.name = none) :
    (front.zipIdx k).foldl (serve params true) m =
      { m with
        rest := tail
        used := (servedEntries front k given).reverse ++ m.used
        bound := m.bound ++ (servedEntries front k given).map (·.2) } := by
  induction front generalizing given k m with
  | nil =>
    have hg : given = [] := length_eq_zero_iff.mp hlen.symm
    subst hg
    have htail : tail = m.rest := by simpa using hm.symm
    simp [servedEntries, htail]
  | cons p front ih =>
    cases given with
    | nil => simp at hlen
    | cons a given =>
      have hp := hnamed p mem_cons_self
      obtain ⟨hnotin, hdistinct⟩ := nodup_cons.mp hdistinct
      rw [zipIdx_cons, foldl_cons, serve_positional hm (hgiven a mem_cons_self)
        (hkind p mem_cons_self) (hfresh p mem_cons_self)]
      rw [ih (k + 1) rfl (by simpa using hlen) (fun q hq => hkind q (mem_cons_of_mem _ hq))
        (fun b hb => hgiven b (mem_cons_of_mem _ hb)) (fun q hq => hnamed q (mem_cons_of_mem _ hq))
          hdistinct]
      · simp [bind, servedEntries, hp]
      · intro q hq
        have hne : q.name ≠ p.name := fun he => hnotin (mem_map.mpr ⟨q, hq, he⟩)
        have hq := hfresh q (mem_cons_of_mem _ hq)
        simpa only [bind, hp, Bool.false_or, List.isEmpty_iff, ite_false, lookup_cons_of_ne hne]
          using hq

/-- Whether a keyword names a parameter. -/
def isKnown (params : List ParamSpec) (a : Argument α) : Bool :=
  params.any fun p => a.keyword == some p.name

theorem isKnown_iff {a : Argument α} :
    isKnown params a = true ↔ ∃ p ∈ params, a.keyword = some p.name := by
  simp [isKnown]

/-- What a keyword argument does to the state: it waits, is kept for its parameter, or is one too
many. -/
theorem takeKeyword_cases (params : List ParamSpec) (m : Matching α) {a : Argument α} {key : Text}
    (ha : a.keyword = some key) :
    (isKnown params a = false ∧ m.takeKeyword params key a =
      { m with sawKeyword := true, unmatched := m.unmatched ++ [(key, a)] }) ∨
    (isKnown params a = true ∧ m.used.lookup key ≠ none ∧ m.takeKeyword params key a =
      { m with
        sawKeyword := true, sawDouble := true, faults := m.faults ++ [.multipleValues key] }) ∨
    (isKnown params a = true ∧ m.used.lookup key = none ∧
      ∃ i, ParamSpec.number? params key = some i ∧ m.takeKeyword params key a =
        { m with sawKeyword := true, used := (key, { param := i, arguments := [a] }) ::
          m.used }) := by
  cases hn : ParamSpec.number? params key with
  | none =>
    refine .inl ⟨?_, by simp only [takeKeyword, hn]⟩
    rw [← Bool.not_eq_true, isKnown_iff]
    rintro ⟨p, hp, he⟩
    rw [ha] at he
    exact ParamSpec.number?_eq_none_iff.mp hn p hp (Option.some.inj he).symm
  | some i =>
    have hknown : isKnown params a = true := by
      rw [← Bool.not_eq_false]
      intro hk
      have hnone : ParamSpec.number? params key = none := by
        rw [ParamSpec.number?_eq_none_iff]
        intro p hp he
        rw [← Bool.not_eq_true, isKnown_iff] at hk
        exact hk ⟨p, hp, by rw [ha, he]⟩
      rw [hn] at hnone
      cases hnone
    cases hl : m.used.lookup key with
    | none =>
      refine .inr (.inr ⟨hknown, rfl, i, rfl, ?_⟩)
      simp only [takeKeyword, hn, hasUsed, hl, Option.isSome_none, Bool.false_eq_true, ite_false]
    | some b =>
      refine .inr (.inl ⟨hknown, by simp, ?_⟩)
      simp only [takeKeyword, hn, hasUsed, hl, Option.isSome_some, ite_true, fault]

section Keywords

variable {keys : List (Argument α)}

private theorem takeKeywords_cons {m : Matching α} {a : Argument α} {key : Text}
    (ha : a.keyword = some key) :
    takeKeywords params (a :: keys) m = takeKeywords params keys (m.takeKeyword params key a) := by
  simp only [takeKeywords, ha]

/-- Collecting keyword arguments reaches the end of the arguments and binds nothing. -/
theorem takeKeywords_frame (params : List ParamSpec) (m : Matching α)
    (hkeys : ∀ a ∈ keys, a.keyword.isSome = true) :
    (takeKeywords params keys m).rest = [] ∧ (takeKeywords params keys m).bound = m.bound ∧
      (takeKeywords params keys m).sawKeyword = (m.sawKeyword || !keys.isEmpty) ∧
      (takeKeywords params keys m).unmatched.map (·.2) =
        m.unmatched.map (·.2) ++ keys.filter fun a => !isKnown params a := by
  induction keys generalizing m with
  | nil => simp [takeKeywords]
  | cons a keys ih =>
    obtain ⟨key, ha⟩ := Option.isSome_iff_exists.mp (hkeys a mem_cons_self)
    have hrest := fun m' => ih m' fun b hb => hkeys b (mem_cons_of_mem _ hb)
    rw [takeKeywords_cons ha]
    obtain ⟨hk, he⟩ | ⟨hk, _, he⟩ | ⟨hk, _, i, _, he⟩ := takeKeyword_cases params m ha <;>
      simp [he, hrest, hk]

/-- Keyword arguments that name parameters no argument was given to, each its own. -/
def KeywordsFree (params : List ParamSpec) (used : List (Text × BoundParam α))
    (keys : List (Argument α)) : Prop :=
  (keys.Pairwise fun a b => ∀ p ∈ params, a.keyword = some p.name → b.keyword ≠ some p.name) ∧
    ∀ a ∈ keys, ∀ p ∈ params, a.keyword = some p.name → used.lookup p.name = none

/-- Faults are only added by looking at keyword arguments. -/
theorem faults_takeKeywords (params : List ParamSpec) (keys : List (Argument α)) (m : Matching α) :
    m.faults <+: (takeKeywords params keys m).faults := by
  induction keys generalizing m with
  | nil => simp [takeKeywords]
  | cons a keys ih =>
    cases ha : a.keyword with
    | none => simp [takeKeywords, ha]
    | some key =>
      rw [takeKeywords_cons ha]
      refine List.IsPrefix.trans ?_ (ih (m.takeKeyword params key a))
      obtain ⟨_, he⟩ | ⟨_, _, he⟩ | ⟨_, _, i, _, he⟩ := takeKeyword_cases params m ha <;> simp [he]

/-- A doubled keyword is a fault. -/
theorem takeKeywords_faults_of_not_free (m : Matching α)
    (hkeys : ∀ a ∈ keys, a.keyword.isSome = true) (hfree : ¬KeywordsFree params m.used keys) :
    (takeKeywords params keys m).faults ≠ [] := by
  induction keys generalizing m with
  | nil => exact absurd ⟨List.Pairwise.nil, by simp⟩ hfree
  | cons a keys ih =>
    obtain ⟨key, ha⟩ := Option.isSome_iff_exists.mp (hkeys a mem_cons_self)
    have hkeys' : ∀ b ∈ keys, b.keyword.isSome = true := fun b hb => hkeys b (mem_cons_of_mem _ hb)
    rw [takeKeywords_cons ha]
    obtain ⟨hk, he⟩ | ⟨_, _, he⟩ | ⟨hk, hl, i, _, he⟩ := takeKeyword_cases params m ha
    · apply ih _ hkeys'
      intro hf
      apply hfree
      have hno : ∀ p ∈ params, a.keyword ≠ some p.name := fun p hp hap => by
        simp [isKnown_iff.mpr ⟨p, hp, hap⟩] at hk
      rw [he] at hf
      refine ⟨pairwise_cons.mpr ⟨fun b _ p hp hap => absurd hap (hno p hp), hf.1⟩, ?_⟩
      intro b hb p hp hbp
      rcases mem_cons.mp hb with rfl | hb
      · exact absurd hbp (hno p hp)
      · exact hf.2 b hb p hp hbp
    · have h := faults_takeKeywords params keys (m.takeKeyword params key a)
      rw [he] at h ⊢
      intro hnil
      rw [hnil] at h
      simpa using prefix_nil.mp h
    · apply ih _ hkeys'
      intro hf
      apply hfree
      rw [he] at hf
      refine ⟨pairwise_cons.mpr ⟨fun b hb p hp hap hbp => ?_, hf.1⟩, ?_⟩
      · have h := hf.2 b hb p hp hbp
        rw [ha] at hap
        rw [Option.some.inj hap, lookup_cons_same] at h
        cases h
      · intro b hb p hp hbp
        rcases mem_cons.mp hb with rfl | hb
        · rw [ha] at hbp
          rw [← Option.some.inj hbp]
          exact hl
        · have h := hf.2 b hb p hp hbp
          by_cases hpk : p.name = key
          · rw [hpk, lookup_cons_same] at h
            cases h
          · rwa [lookup_cons_of_ne hpk] at h

/-- Free keyword arguments are no fault and are kept for the parameters they name. -/
theorem takeKeywords_of_free (m : Matching α) (hdistinct : (params.map (·.name)).Nodup)
    (hkeys : ∀ a ∈ keys, a.keyword.isSome = true) (hfree : KeywordsFree params m.used keys) :
    (takeKeywords params keys m).faults = m.faults ∧
      (takeKeywords params keys m).sawDouble = m.sawDouble ∧
      ∀ i p, params[i]? = some p → (takeKeywords params keys m).used.lookup p.name =
        ((keys.find? (·.keyword == some p.name)).map fun a => { param := i, arguments := [a] }).or
          (m.used.lookup p.name) := by
  induction keys generalizing m with
  | nil => simp [takeKeywords]
  | cons a keys ih =>
    obtain ⟨key, ha⟩ := Option.isSome_iff_exists.mp (hkeys a mem_cons_self)
    have hkeys' : ∀ b ∈ keys, b.keyword.isSome = true := fun b hb => hkeys b (mem_cons_of_mem _ hb)
    obtain ⟨hhead, htail⟩ := pairwise_cons.mp hfree.1
    rw [takeKeywords_cons ha]
    obtain ⟨hk, he⟩ | ⟨hk, hl, he⟩ | ⟨hk, hl, i, hi, he⟩ := takeKeyword_cases params m ha
    · have hno : ∀ p ∈ params, a.keyword ≠ some p.name := fun p hp hap => by
        simp [isKnown_iff.mpr ⟨p, hp, hap⟩] at hk
      have hf : KeywordsFree params (m.takeKeyword params key a).used keys := by
        rw [he]
        exact ⟨htail, fun b hb => hfree.2 b (mem_cons_of_mem _ hb)⟩
      obtain ⟨h₁, h₂, h₃⟩ := ih _ hkeys' hf
      refine ⟨by rw [h₁, he], by rw [h₂, he], fun j p hp => ?_⟩
      rw [h₃ j p hp, find?_cons_of_neg (by simpa using hno p (mem_of_getElem? hp)), he]
    · obtain ⟨p, hp, hap⟩ := isKnown_iff.mp hk
      rw [ha] at hap
      refine absurd (hfree.2 a mem_cons_self p hp (by rw [ha, hap])) ?_
      rwa [← Option.some.inj hap]
    · have hf : KeywordsFree params (m.takeKeyword params key a).used keys := by
        rw [he]
        refine ⟨htail, fun b hb p hp hbp => ?_⟩
        have hne : p.name ≠ key := fun hpk => hhead b hb p hp (by rw [ha, hpk]) hbp
        rw [lookup_cons_of_ne hne]
        exact hfree.2 b (mem_cons_of_mem _ hb) p hp hbp
      obtain ⟨h₁, h₂, h₃⟩ := ih _ hkeys' hf
      refine ⟨by rw [h₁, he], by rw [h₂, he], fun j p hp => ?_⟩
      rw [h₃ j p hp, he]
      by_cases hpk : p.name = key
      · have hnone : keys.find? (·.keyword == some p.name) = none := by
          rw [find?_eq_none]
          intro b hb
          simpa using hhead b hb p (mem_of_getElem? hp) (by rw [ha, hpk])
        have hij : i = j := by
          rw [← hpk, ParamSpec.number?_eq_some hdistinct hp] at hi
          exact (Option.some.inj hi).symm
        rw [hnone, find?_cons_of_pos (by simp [ha, hpk]), hpk, lookup_cons_same, hij]
        rfl
      · have hne : a.keyword ≠ some p.name :=
          fun hap => hpk (by rw [ha] at hap; exact (Option.some.inj hap).symm)
        rw [find?_cons_of_neg (by simpa using hne), lookup_cons_of_ne hpk]

end Keywords

section Settled

/-- Whether a plain parameter gets nothing and has no default. -/
def lacks (m : Matching α) (q : ParamSpec) : Bool :=
  (m.used.lookup q.name).isNone && !q.kind.isVariadic && !q.hasDefault

/-- What a parameter gets once all arguments have been looked at. -/
def settled (m : Matching α) (q : ParamSpec) (i : Nat) : BoundParam α :=
  match m.used.lookup q.name with
  | some b => b
  | none =>
    match q.kind with
    | .varPositional => { param := i }
    | .varKeyword => { param := i, arguments := m.unmatched.map (·.2) }
    | _ => { param := i, fromDefault := q.hasDefault, missing := !q.hasDefault }

/-- The state once a parameter is served after all arguments have been looked at. -/
structure SettledStep (m : Matching α) (q : ParamSpec) (i : Nat) (out : Matching α) : Prop where
  rest : out.rest = []
  sawKeyword : out.sawKeyword = m.sawKeyword
  sawDouble : out.sawDouble = m.sawDouble
  bound : out.bound = m.bound ++ [m.settled q i]
  faults : out.faults = m.faults ++ if m.lacks q && !m.sawKeyword then [.tooFew] else []
  unmatched : out.unmatched = if q.kind == .varKeyword && (m.used.lookup q.name).isNone then []
    else m.unmatched
  own : (out.used.lookup q.name).isNone = m.lacks q
  others : ∀ name, name ≠ q.name → out.used.lookup name = m.used.lookup name

theorem serve_settled (params : List ParamSpec) {m : Matching α} (hrest : m.rest = [])
    (q : ParamSpec) (hq : q.name ≠ []) (i : Nat) :
    SettledStep m q i (serve params true m (q, i)) := by
  have htake : takeKeywords params m.rest m = m := by
    rw [hrest, takeKeywords, ← hrest]
  unfold serve
  simp only [htake]
  cases hl : m.used.lookup q.name with
  | some b => constructor <;> simp [hrest, settled, lacks, hl]
  | none =>
    have hother : ∀ (b : BoundParam α) name, name ≠ q.name →
        List.lookup name ((q.name, b) :: m.used) = m.used.lookup name :=
          fun _ _ h => lookup_cons_of_ne h
    cases hk : q.kind
    case varPositional | varKeyword =>
      constructor <;>
        simp +contextual [serveNext, bind, settled, lacks, ParamKind.isVariadic, hl, hk, hq, hrest,
          hother]
    case keywordOnly | positionalOnly | positionalOrKeyword =>
      cases hd : q.hasDefault <;> cases hs : m.sawKeyword <;> constructor <;>
        simp +contextual [serveNext, bindNothing, bind, fault, settled, lacks, ParamKind.isVariadic,
          hl, hk, hq, hd, hs, hrest, hother]

/-- The state once all remaining parameters are served after all arguments have been looked at. -/
structure SettledRun (m : Matching α) (qs : List ParamSpec) (j : Nat) (out : Matching α) :
    Prop where
  rest : out.rest = []
  sawKeyword : out.sawKeyword = m.sawKeyword
  sawDouble : out.sawDouble = m.sawDouble
  bound : out.bound = m.bound ++ (qs.zipIdx j).map fun e => m.settled e.1 e.2
  faults : out.faults = [] ↔ m.faults = [] ∧ (m.sawKeyword = true ∨ ∀ q ∈ qs, m.lacks q = false)
  unmatched : out.unmatched = [] ↔
    m.unmatched = [] ∨ ∃ q ∈ qs, q.kind = .varKeyword ∧ m.used.lookup q.name = none
  own : ∀ q ∈ qs, (out.used.lookup q.name).isNone = m.lacks q
  others : ∀ name, (∀ q ∈ qs, name ≠ q.name) → out.used.lookup name = m.used.lookup name

theorem foldl_serve_settled (params : List ParamSpec) {m : Matching α} (hrest : m.rest = [])
    (qs : List ParamSpec) (j : Nat) (hnamed : ∀ q ∈ qs, q.name ≠ [])
    (hdistinct : (qs.map (·.name)).Nodup) (hlast : qs.Pairwise fun p _ => p.kind ≠ .varKeyword) :
    SettledRun m qs j ((qs.zipIdx j).foldl (serve params true) m) := by
  induction qs generalizing m j with
  | nil => constructor <;> simp [hrest]
  | cons q qs ih =>
    obtain ⟨hnotin, hdistinct⟩ := nodup_cons.mp hdistinct
    obtain ⟨hq, hlast⟩ := pairwise_cons.mp hlast
    have hne : ∀ p ∈ qs, p.name ≠ q.name := fun p hp he => hnotin (mem_map.mpr ⟨p, hp, he⟩)
    have hstep := serve_settled params hrest q (hnamed q mem_cons_self) j
    rw [zipIdx_cons, foldl_cons]
    generalize serve params true m (q, j) = next at hstep
    have hrun := ih hstep.rest (j + 1) (fun p hp => hnamed p (mem_cons_of_mem _ hp)) hdistinct hlast
    -- Serving `q` changes nothing that a later parameter sees.
    have hlookup : ∀ p ∈ qs, next.used.lookup p.name = m.used.lookup p.name :=
      fun p hp => hstep.others p.name (hne p hp)
    have hlacks : ∀ p ∈ qs, next.lacks p = m.lacks p := fun p hp => by
      simp only [lacks, hlookup p hp]
    have hsettled : ∀ p ∈ qs, ∀ i, next.settled p i = m.settled p i := by
      intro p hp i
      have hu : next.unmatched = m.unmatched := by
        rw [hstep.unmatched, beq_false_of_ne (hq p hp)]
        rfl
      simp only [settled, hlookup p hp, hu]
    refine ⟨hrun.rest, hrun.sawKeyword.trans hstep.sawKeyword, hrun.sawDouble.trans hstep.sawDouble,
      ?_, ?_, ?_, ?_, ?_⟩
    · rw [hrun.bound, hstep.bound, zipIdx_cons, map_cons, append_assoc, singleton_append]
      congr 2
      exact map_congr_left fun e he => hsettled e.1 (fst_mem_of_mem_zipIdx he) e.2
    · rw [hrun.faults, hstep.faults, hstep.sawKeyword]
      have hall : (∀ p ∈ qs, next.lacks p = false) ↔ ∀ p ∈ qs, m.lacks p = false :=
        forall₂_congr fun p hp => by rw [hlacks p hp]
      rw [hall]
      cases m.sawKeyword <;> cases hl : m.lacks q <;> simp [hl]
    · have hex : (∃ p ∈ qs, p.kind = .varKeyword ∧ next.used.lookup p.name = none) ↔
          ∃ p ∈ qs, p.kind = .varKeyword ∧ m.used.lookup p.name = none :=
        exists_congr fun p => and_congr_right fun hp => by rw [hlookup p hp]
      simp only [hrun.unmatched, hstep.unmatched, hex, mem_cons, exists_eq_or_imp]
      by_cases hkind : q.kind = .varKeyword ∧ m.used.lookup q.name = none
      · simp [hkind.1, hkind.2]
      · have hno : (q.kind == .varKeyword && (m.used.lookup q.name).isNone) = false := by
          rw [← Bool.not_eq_true, Bool.and_eq_true, beq_iff_eq, Option.isNone_iff_eq_none]
          exact hkind
        simp only [hno, Bool.false_eq_true, ite_false, hkind, false_or]
    · intro p hp
      rcases mem_cons.mp hp with rfl | hp
      · rw [hrun.others _ fun r hr he => hne r hr he.symm, hstep.own]
      · rw [hrun.own p hp, hlacks p hp]
    · intro name hname
      rw [hrun.others name fun r hr => hname r (mem_cons_of_mem _ hr),
        hstep.others name (hname q mem_cons_self)]

/-- All faults of a state in which every parameter is served. -/
def allFaults (params : List ParamSpec) (m : Matching α) : List CallFault :=
  m.faults ++ m.finalFaults params true

/-- When all arguments have been looked at, the last check asks for what is still lacking and for
keywords that no parameter took. -/
theorem allFaults_eq_nil_iff {m : Matching α} (hdistinct : (params.map (·.name)).Nodup)
    (hrest : m.rest = []) (hdouble : m.sawDouble = false) :
    allFaults params m = [] ↔ m.faults = [] ∧ m.unmatched = [] ∧
      (m.sawKeyword = false ∨ ∀ p ∈ params, m.lacks p = false) := by
  have hlacking : ((ParamSpec.byName params).filter fun e =>
      !m.hasUsed e.1 && !e.2.kind.isVariadic && !e.2.hasDefault) = [] ↔ ∀ p ∈ params, m.lacks p =
        false := by
    rw [filter_eq_nil_iff]
    constructor
    · intro h p hp
      have := h (p.name, p) ((ParamSpec.mem_byName_iff hdistinct _ _).mpr ⟨hp, rfl⟩)
      simpa [lacks, hasUsed] using this
    · rintro h ⟨name, p⟩ he
      obtain ⟨hp, rfl⟩ := (ParamSpec.mem_byName_iff hdistinct _ _).mp he
      have := h p hp
      simpa [lacks, hasUsed] using this
  cases hs : m.sawKeyword
  · simp [allFaults, finalFaults, hs, hrest]
  · cases hu : m.unmatched with
    | nil => simpa [allFaults, finalFaults, hs, hrest, hdouble, hu] using fun _ => hlacking
    | cons entry rest => simp [allFaults, finalFaults, hu]

/-- Serving a parameter first looks at the keyword arguments that come next. -/
theorem serve_takeKeywords {m : Matching α} (entry : ParamSpec × Nat)
    (hrest : (takeKeywords params m.rest m).rest = []) :
    serve params true m entry = serve params true (takeKeywords params m.rest m) entry := by
  have hagain : takeKeywords params (takeKeywords params m.rest m).rest
      (takeKeywords params m.rest m) = takeKeywords params m.rest m := by
    generalize takeKeywords params m.rest m = next at hrest
    rw [hrest, takeKeywords, ← hrest]
  simp only [serve, hagain]

end Settled

section Stuck

/-- A state whose calls are at fault: a fault was found, or a positional argument is in front. -/
def Stuck (m : Matching α) : Prop := m.faults ≠ [] ∨ ∃ a rest, m.rest = a :: rest ∧ a.keyword = none

/-- Parameters behind the positional ones and their collector do not take the positional argument in
front. -/
theorem serve_stuck {m : Matching α} (hm : m.Stuck) {q : ParamSpec} {i : Nat}
    (hq : q.kind = .keywordOnly ∨ q.kind = .varKeyword) : (serve params true m (q, i)).Stuck := by
  have hnext : (takeKeywords params m.rest m).Stuck := by
    rcases hm with hm | ⟨a, rest, hr, ha⟩
    · refine .inl fun hnil => hm ?_
      have h := faults_takeKeywords params m.rest m
      rw [hnil] at h
      exact prefix_nil.mp h
    · refine .inr ⟨a, rest, ?_, ha⟩
      rw [hr, takeKeywords, ha]
  unfold serve
  generalize takeKeywords params m.rest m = next at hnext
  cases hl : next.used.lookup q.name with
  | some b => simpa only [hl, Stuck] using hnext
  | none =>
    simp only [hl]
    rcases hq with hq | hq
    · rcases hnext with h | ⟨a, rest, hr, ha⟩
      · left
        cases hd : q.hasDefault <;> cases hs : next.sawKeyword <;>
          simp [serveNext, hq, bindNothing, bind, fault, hd, hs, h]
      · right
        refine ⟨a, rest, ?_, ha⟩
        cases hd : q.hasDefault <;> cases hs : next.sawKeyword <;>
          simp [serveNext, hq, bindNothing, bind, fault, hd, hs, hr]
    · left
      cases hr : next.rest with
      | cons a rest => simp [serveNext, hq, hr, bind, fault]
      | nil =>
        rcases hnext with h | ⟨a, rest, hr', _⟩
        · simpa [serveNext, hq, hr, bind] using h
        · rw [hr] at hr'
          cases hr'

/-- A surplus positional argument stays a fault up to the end. -/
theorem allFaults_stuck {m : Matching α} (hm : m.Stuck) (qs : List (ParamSpec × Nat))
    (hqs : ∀ e ∈ qs, e.1.kind = .keywordOnly ∨ e.1.kind = .varKeyword) :
    allFaults params (qs.foldl (serve params true) m) ≠ [] := by
  induction qs generalizing m with
  | nil =>
    rcases hm with h | ⟨a, rest, hr, _⟩
    · simp [allFaults, h]
    · simp [allFaults, finalFaults, hr]
  | cons e qs ih =>
    rw [foldl_cons]
    exact ih (serve_stuck hm (hqs e mem_cons_self)) fun f hf => hqs f (mem_cons_of_mem _ hf)

end Stuck

end NameInference.Matching
