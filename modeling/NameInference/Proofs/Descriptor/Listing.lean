import NameInference.Descriptor.Repository
import NameInference.Proofs.Text.Table

/-!
# Folders as listed and as looked into

What stands in a folder can be found in two ways: by listing the folder, or by following a path that
ends in its name. Both lead to the same entries, so the modules that are listed are the ones that
are located. They differ on a module that is both a package and a file: the package is located,
while the file is listed behind it and takes its place.
-/

namespace NameInference

open List Text

namespace Text

theorem splitOn_eq_listSplitOn (separator : UInt8) (t : Text) :
    t.splitOn separator = List.splitOn separator t := by
  induction t with
  | nil => rfl
  | cons b t ih =>
    obtain ⟨piece, more, hpieces⟩ := exists_cons_of_ne_nil (splitOn_ne_nil separator t)
    have hcons : List.splitOn separator (b :: t) = if b == separator then [] ::
      List.splitOn separator t
        else (List.splitOn separator t).modifyHead (b :: ·) := splitOnP_cons_eq_if_modifyHead b t
    rw [splitOn, ih, hcons, hpieces]
    rfl

theorem untilZero_of_not_mem {t : Text} (h : 0 ∉ t) : t.untilZero = t := by
  have hall : ∀ b ∈ t, (b != 0) = true := fun b hb => bne_iff_ne.mpr fun hzero => h (hzero ▸ hb)
  rw [untilZero, ← append_nil t, takeWhile_append_of_pos hall, takeWhile_nil]

theorem endsWith_iff {t s : Text} : t.endsWith s = true ↔ ∃ stem, t = stem ++ s := by
  rw [endsWith, isSuffixOf_iff_suffix]
  exact ⟨fun ⟨stem, h⟩ => ⟨stem, h.symm⟩, fun ⟨stem, h⟩ => ⟨stem, h.symm⟩⟩

theorem dropEnd_append (stem s : Text) : (stem ++ s).dropEnd s.length = stem := by
  simp [dropEnd]

theorem pairwise_sort (texts : List Text) : (sort texts).Pairwise (· ≤ ·) := by
  refine (pairwise_mergeSort ?_ ?_ texts).imp fun h => of_decide_eq_true h
  · intro a b c hab hbc
    exact decide_eq_true (List.le_trans (of_decide_eq_true hab) (of_decide_eq_true hbc))
  · intro a b
    simpa [le] using List.le_total a b

end Text

namespace Files

variable {files : Files} {here : List Text} {path folder name extension : Text}

/-- A name that leads from a folder to something directly in it. -/
structure IsComponent (name : Text) : Prop where
  ne_nil : name ≠ []
  slashless : 0x2F ∉ name
  zeroless : 0 ∉ name
  ne_here : name ≠ "."
  ne_parent : name ≠ parentName

theorem follow_append (files : Files) (here first second : List Text) :
    files.follow here (first ++ second) = (files.follow here first).bind
      (files.follow · second) := by
  induction first generalizing here with
  | nil => rfl
  | cons component first ih =>
    rw [cons_append, follow, follow]
    split
    · rfl
    · split
      · exact ih here
      · split
        · exact ih (around here)
        · exact ih (here ++ [component])

theorem follow_blank (files : Files) (here : List Text) :
    files.follow here [[]] = if files.hasFolder here then some here else none := by
  cases h : files.hasFolder here <;> simp [follow, h]

theorem follow_component (h : IsComponent name) (files : Files) (here : List Text) :
    files.follow here [name] = if files.hasFolder here then some (here ++ [name]) else none := by
  cases hfolder : files.hasFolder here <;> simp [follow, hfolder, h.ne_nil, h.ne_here, h.ne_parent]

/-- A path to something in the folder of another path, which may end in a slash. -/
def below (path name : Text) : Text :=
  if path = [] ∨ path.getLast? = some 0x2F then path ++ name else path ++ 0x2F :: name

theorem follow_below (h : IsComponent name) (files : Files) (here : List Text) (path : Text) :
    files.follow here (List.splitOn 0x2F (below path name)) =
      (files.follow here (List.splitOn 0x2F path)).bind fun folder =>
        if files.hasFolder folder then some (folder ++ [name]) else none := by
  -- A blank last component asks for a folder just as a name behind it does.
  have hblank (components : List Text) : files.follow here (components ++ [name]) =
      (files.follow here (components ++ [[]])).bind fun folder =>
        if files.hasFolder folder then some (folder ++ [name]) else none := by
    rw [follow_append, follow_append]
    cases files.follow here components with
    | none => rfl
    | some folder =>
      simp only [Option.bind_some, follow_blank, follow_component h]
      cases hfolder : files.hasFolder folder <;> simp [hfolder]
  have hname := splitOn_eq_singleton h.slashless
  have hslash (first second : Text) :
      List.splitOn 0x2F (first ++ 0x2F :: second) = List.splitOn 0x2F first ++
        List.splitOn 0x2F second :=
    splitOnP_append_cons first second rfl
  unfold below
  split
  next hopen =>
    obtain rfl | hlast := hopen
    · rw [nil_append, hname]
      exact hblank []
    · obtain ⟨init, rfl⟩ := getLast?_eq_some_iff.mp hlast
      rw [append_assoc, singleton_append, hslash, hslash, hname]
      exact hblank _
  next =>
    rw [hslash, hname, follow_append]
    simp only [follow_component h]

theorem resolve?_slash (hzero : 0 ∉ path) :
    files.resolve? (0x2F :: path) = files.follow rootNames (List.splitOn 0x2F path) := by
  have hpath : Text.untilZero (0x2F :: path) = 0x2F :: path :=
    untilZero_of_not_mem (by simpa using hzero)
  rw [resolve?, hpath]
  rfl

theorem resolve?_of_ne {b : UInt8} (hb : b ≠ 0x2F) (hzero : 0 ∉ b :: path) :
    files.resolve? (b :: path) = files.follow [] (List.splitOn 0x2F (b :: path)) := by
  rw [← splitOn_eq_listSplitOn, resolve?, untilZero_of_not_mem hzero]
  split
  next h => cases h
  next h => exact absurd (List.cons.inj h).1 hb
  next => rfl

theorem join_of_ne_nil (hpath : path ≠ []) (h : IsComponent name) :
    join path name = below path name := by
  simp [join, below, hpath, h.ne_nil]

theorem zeroless_join (hzero : 0 ∉ path) (h : IsComponent name) : 0 ∉ join path name := by
  have hname := h.zeroless
  unfold join
  repeat' split
  all_goals simp [hzero, hname]

theorem join_ne_nil (path : Text) (h : IsComponent name) : join path name ≠ [] := by
  have hname := h.ne_nil
  unfold join
  repeat' split
  all_goals simp_all

/-- A path into a folder resolves if the path of the folder leads to one. -/
theorem resolve?_join (hpath : path ≠ []) (hzero : 0 ∉ path) (h : IsComponent name) :
    files.resolve? (join path name) = (files.resolve? path).bind fun folder =>
      if files.hasFolder folder then some (folder ++ [name]) else none := by
  have hjoin := zeroless_join hzero h
  rw [join_of_ne_nil hpath h] at hjoin ⊢
  obtain ⟨b, rest, rfl⟩ := exists_cons_of_ne_nil hpath
  by_cases hb : b = 0x2F
  · subst hb
    have hbelow : below (0x2F :: rest) name = 0x2F :: below rest name := by
      cases rest with
      | nil => simp [below]
      | cons c rest =>
        simp only [below, getLast?_cons_cons, reduceCtorEq, false_or]
        split <;> rfl
    rw [hbelow] at hjoin ⊢
    rw [resolve?_slash (not_mem_of_not_mem_cons hjoin),
      resolve?_slash (not_mem_of_not_mem_cons hzero)]
    exact follow_below h files rootNames rest
  · obtain ⟨more, hmore⟩ : ∃ more, below (b :: rest) name = b :: more := by
      unfold below
      split <;> exact ⟨_, rfl⟩
    rw [hmore] at hjoin
    rw [hmore, resolve?_of_ne hb hjoin, ← hmore, resolve?_of_ne hb hzero]
    exact follow_below h files [] (b :: rest)

theorem entry?_child (h : IsComponent name) (files : Files) (folder : List Text) :
    files.entry? (folder ++ [name]) =
      if files.folders.contains (folder ++ [name]) then some .folder
      else (files.contents.lookup (folder ++ [name])).map .file := by
  have habove : isAbove (folder ++ [name]) = false := by simp [isAbove, h.ne_parent]
  rw [ entry?, habove, Bool.false_or]

theorem isFile_iff : files.isFile path = true ↔ ∃ names content, files.resolve? path = some names ∧
    files.entry? names = some (.file content) := by
  unfold isFile content?
  cases hresolve : files.resolve? path with
  | none => simp
  | some names =>
    rcases hentry : files.entry? names with _ | (content | _) <;> simp [hentry]

theorem isFolder_iff : files.isFolder path = true ↔ ∃ names, files.resolve? path = some names ∧
    files.entry? names = some .folder := by
  unfold isFolder hasFolder
  cases hresolve : files.resolve? path with
  | none => simp
  | some names =>
    rcases hentry : files.entry? names with _ | (content | _) <;> simp [hentry]

theorem not_isFolder_of_isFile (h : files.isFile path = true) : ¬ files.isFolder path = true := by
  intro hfolder
  obtain ⟨names, content, hnames, hentry⟩ := isFile_iff.mp h
  obtain ⟨names', hnames', hentry'⟩ := isFolder_iff.mp hfolder
  obtain rfl := Option.some.inj (hnames.symm.trans hnames')
  exact absurd (hentry.symm.trans hentry') (by simp)

/-- What stands at a path into a folder, and the folder has to be there. -/
theorem resolve?_join_eq_some (hpath : path ≠ []) (hzero : 0 ∉ path) (h : IsComponent name)
    {names : List Text} :
    files.resolve? (join path name) = some names ↔
      ∃ folder, files.resolve? path = some folder ∧ files.hasFolder folder = true ∧
      names = folder ++ [name] := by
  rw [resolve?_join hpath hzero h]
  cases files.resolve? path with
  | none => simp
  | some folder => cases hfolder : files.hasFolder folder <;> simp [hfolder, @eq_comm _ names]

theorem isFolder_of_isFile_join (hpath : path ≠ []) (hzero : 0 ∉ path) (h : IsComponent name)
    (hfile : files.isFile (join path name) = true) : files.isFolder path = true := by
  obtain ⟨names, content, hnames, hentry⟩ := isFile_iff.mp hfile
  obtain ⟨folder, hresolve, hfolder, rfl⟩ := (resolve?_join_eq_some hpath hzero h).mp hnames
  simp [isFolder, hresolve, hfolder]

theorem childName?_eq_some (h : IsComponent name) {folder names : List Text} :
    childName? folder names = some name ↔ names = folder ++ [name] := by
  have hslash : name ≠ [0x2F] := fun heq => h.slashless (heq ▸ mem_singleton_self _)
  constructor
  · intro hchild
    unfold childName? at hchild
    split at hchild
    next hfolder =>
      obtain ⟨init, rfl⟩ := getLast?_eq_some_iff.mp hchild
      simp_all
    next => cases hchild
  · rintro rfl
    have hroot : folder ++ [name] ≠ rootNames := fun heq => by
      have hlast := congrArg List.getLast? heq
      simp [rootNames, hslash] at hlast
    simp [childName?, hroot]

theorem mem_list_iff (hpath : path ≠ []) (hzero : 0 ∉ path) (h : IsComponent name) :
    name ∈ files.list path ↔ files.isFolder (join path name) = true ∨
      files.isFile (join path name) = true := by
  rw [isFolder_iff, isFile_iff]
  simp only [resolve?_join_eq_some hpath hzero h]
  unfold list
  cases files.resolve? path with
  | none => simp
  | some folder =>
    cases hfolder : files.hasFolder folder with
    | false => simp [hfolder]
    | true =>
      have hlisted : name ∈ Text.sort
          ((files.folders ++ files.contents.map (·.1)).filterMap (childName? folder)).eraseDups ↔
          folder ++ [name] ∈ files.folders ∨ (files.contents.lookup (folder ++ [name])).isSome =
            true := by
        simp [Text.sort, mem_eraseDups, childName?_eq_some h, lookup_isSome_iff]
      dsimp only
      rw [if_pos hfolder, hlisted]
      by_cases hmem : folder ++ [name] ∈ files.folders
      · simp [hfolder, entry?_child h, hmem]
      · simp [hfolder, entry?_child h, hmem, Option.isSome_iff_exists]

/-- A folder and the name of a module that can stand in it, none of them cut short by a zero byte or
a slash. -/
structure Listable (folder name extension : Text) : Prop where
  folder_ne_nil : folder ≠ []
  folder_zeroless : 0 ∉ folder
  component : IsComponent name
  ne_package : name ≠ "__init__"
  extension_ne_nil : extension ≠ []
  extension_slashless : 0x2F ∉ extension
  extension_zeroless : 0 ∉ extension

/-- The file of a module that is a package. -/
def packagePath (folder name extension : Text) : Text :=
  join (join folder name) (packageFile extension)

/-- The file of a module that is not a package. -/
def modulePath (folder name extension : Text) : Text := join folder (name ++ extension)

variable {entry file : Text}

theorem pairwise_list (files : Files) (folder : Text) : (files.list folder).Pairwise (· ≤ ·) := by
  unfold list
  split
  · exact .nil
  · split
    · exact pairwise_sort _
    · exact .nil

/-- The value of a module among the descriptors is that of an entry, if no entry behind it stands
for another file. -/
theorem get?_descriptors_of_entry (hentry : entry ∈ files.list folder)
    (hsome : files.descriptorEntry? folder extension entry = some (name, file))
    (hlast : ∀ other ∈ files.list folder, entry ≤ other → ∀ file',
      files.descriptorEntry? folder extension other = some (name, file') → file' = file) :
    (files.descriptors folder extension).get? name = some file := by
  obtain ⟨front, back, hsplit⟩ := append_of_mem hentry
  have hsorted := pairwise_list files folder
  rw [hsplit] at hlast hsorted
  rw [descriptors, hsplit, filterMap_append, filterMap_cons_some hsome]
  refine Table.get?_ofList_eq_some _ fun pair hpair hname => ?_
  obtain ⟨other, hother, hpair⟩ := mem_filterMap.mp hpair
  have hle : entry ≤ other := (pairwise_cons.mp (pairwise_append.mp hsorted).2.1).1 other hother
  refine hlast other (by simp [hother]) hle pair.2 ?_
  rw [hpair, ← hname]

namespace Listable

variable (h : Listable folder name extension)

include h

theorem moduleFile : IsComponent (name ++ extension) where
  ne_nil heq := h.component.ne_nil (append_eq_nil_iff.mp heq).1
  slashless := by simp [h.component.slashless, h.extension_slashless]
  zeroless := by simp [h.component.zeroless, h.extension_zeroless]
  ne_here heq := by
    have hdot : Text.ofString "." = [0x2E] := by decide +kernel
    rw [hdot, append_eq_singleton_iff] at heq
    exact heq.elim (fun heq => h.component.ne_nil heq.1) fun heq => h.extension_ne_nil heq.2
  ne_parent heq := by
    have hdot : Text.ofString "." = [0x2E] := by decide +kernel
    have hdots : parentName = [0x2E, 0x2E] := by decide +kernel
    obtain ⟨b, rest, hname⟩ := exists_cons_of_ne_nil h.component.ne_nil
    obtain ⟨c, tail, hextension⟩ := exists_cons_of_ne_nil h.extension_ne_nil
    rw [hdots, hname, cons_append, List.cons.injEq] at heq
    obtain ⟨rfl, hrest⟩ := heq
    rw [append_eq_singleton_iff] at hrest
    refine hrest.elim (fun hrest => h.component.ne_here ?_) fun hrest => h.extension_ne_nil hrest.2
    rw [hname, hrest.1, hdot]

theorem packageFile : IsComponent (packageFile extension) := by
  have hinit : Text.ofString "__init__" = [0x5F, 0x5F, 0x69, 0x6E, 0x69, 0x74, 0x5F, 0x5F] := by
    decide +kernel
  have hdot : Text.ofString "." = [0x2E] := by decide +kernel
  have hdots : parentName = [0x2E, 0x2E] := by decide +kernel
  constructor <;> simp [NameInference.packageFile, hinit, hdot, hdots, h.extension_slashless,
    h.extension_zeroless]

theorem isFolder_of_isFile (hfile : files.isFile (packagePath folder name extension) = true) :
    files.isFolder (join folder name) = true :=
  isFolder_of_isFile_join (join_ne_nil folder h.component)
    (zeroless_join h.folder_zeroless h.component) h.packageFile hfile

theorem mem_list_of_package (hfile : files.isFile (packagePath folder name extension) = true) :
    name ∈ files.list folder :=
  (mem_list_iff h.folder_ne_nil h.folder_zeroless h.component).mpr
    (.inl (h.isFolder_of_isFile hfile))

theorem mem_list_of_module (hfile : files.isFile (modulePath folder name extension) = true) :
    name ++ extension ∈ files.list folder :=
  (mem_list_iff h.folder_ne_nil h.folder_zeroless h.moduleFile).mpr (.inr hfile)

/-- Only two entries of a folder stand for a module: the folder of its package and its own file. -/
theorem descriptorEntry?_eq_some (hentry : entry ∈ files.list folder) :
    files.descriptorEntry? folder extension entry = some (name, file) ↔
      entry = name ∧ file = packagePath folder name extension ∧ files.isFile file = true ∨
      entry = name ++ extension ∧ file = modulePath folder name extension ∧
      files.isFile file = true := by
  constructor
  · intro hsome
    unfold descriptorEntry? at hsome
    dsimp only at hsome
    split at hsome
    next hfolder =>
      split at hsome
      next hfile =>
        obtain ⟨rfl, rfl⟩ := Prod.mk.inj (Option.some.inj hsome)
        exact .inl ⟨rfl, rfl, hfile⟩
      next => cases hsome
    next hfolder =>
      split at hsome
      next hends =>
        obtain ⟨stem, rfl⟩ := endsWith_iff.mp (Bool.and_eq_true_iff.mp hends).2
        rw [dropEnd_append, Option.filter_eq_some_iff] at hsome
        obtain ⟨rfl, rfl⟩ := Prod.mk.inj (Option.some.inj hsome.1)
        have hstands := (mem_list_iff h.folder_ne_nil h.folder_zeroless h.moduleFile).mp hentry
        exact .inr ⟨rfl, rfl, hstands.resolve_left hfolder⟩
      next => cases hsome
  · rintro (⟨rfl, rfl, hfile⟩ | ⟨rfl, rfl, hfile⟩)
    · unfold descriptorEntry?
      dsimp only
      rw [if_pos (h.isFolder_of_isFile hfile)]
      exact if_pos hfile
    · have hlonger : extension.length < (name ++ extension).length := by
        rw [length_append]
        exact Nat.lt_add_of_pos_left (length_pos_iff.mpr h.component.ne_nil)
      have hends : (name ++ extension).endsWith extension = true := endsWith_iff.mpr ⟨name, rfl⟩
      have hfolder : ¬ files.isFolder (join folder (name ++ extension)) = true :=
        not_isFolder_of_isFile hfile
      unfold descriptorEntry?
      dsimp only
      rw [if_neg hfolder, if_pos (Bool.and_eq_true_iff.mpr ⟨decide_eq_true hlonger, hends⟩),
        dropEnd_append, Option.filter_eq_some_iff]
      exact ⟨rfl, bne_iff_ne.mpr h.ne_package⟩

/-- An entry is listed as a module if it stands for one, however short it is. -/
theorem moduleName?_eq_some : files.moduleName? folder extension entry = some name ↔
      ∃ file, files.descriptorEntry? folder extension entry = some (name, file) := by
  unfold moduleName? descriptorEntry?
  dsimp only
  split
  · split <;> simp
  · by_cases hends : entry.endsWith extension = true
    · obtain ⟨stem, rfl⟩ := endsWith_iff.mp hends
      have hname := h.component.ne_nil
      rw [if_pos hends, dropEnd_append, Option.filter_eq_some_iff]
      constructor
      · rintro ⟨hstem, hne⟩
        obtain rfl := Option.some.inj hstem
        refine ⟨join folder (stem ++ extension), ?_⟩
        rw [if_pos (by simp [hends, length_pos_iff, hname]), Option.filter_eq_some_iff]
        exact ⟨rfl, hne⟩
      · rintro ⟨file, hsome⟩
        split at hsome
        next =>
          obtain ⟨hpair, hne⟩ := Option.filter_eq_some_iff.mp hsome
          exact ⟨congrArg some (Prod.mk.inj (Option.some.inj hpair)).1, hne⟩
        next => cases hsome
    · simp [hends]

theorem mem_submodules_iff : name ∈ files.submodules folder extension ↔
    files.isFile (packagePath folder name extension) = true ∨
      files.isFile (modulePath folder name extension) = true := by
  simp only [submodules, Text.sort, mem_eraseDups, mem_mergeSort, mem_filterMap,
    h.moduleName?_eq_some]
  constructor
  · rintro ⟨entry, hentry, file, hsome⟩
    obtain ⟨-, rfl, hfile⟩ | ⟨-, rfl, hfile⟩ := (h.descriptorEntry?_eq_some hentry).mp hsome
    · exact .inl hfile
    · exact .inr hfile
  · rintro (hfile | hfile)
    · have hentry := h.mem_list_of_package hfile
      exact ⟨name, hentry, _, (h.descriptorEntry?_eq_some hentry).mpr (.inl ⟨rfl, rfl, hfile⟩)⟩
    · have hentry := h.mem_list_of_module hfile
      exact ⟨name ++ extension, hentry, _,
        (h.descriptorEntry?_eq_some hentry).mpr (.inr ⟨rfl, rfl, hfile⟩)⟩

/-- The file of a module counts among the descriptors, and its package, which is listed before it,
only without it. -/
theorem get?_descriptors : (files.descriptors folder extension).get? name =
      if files.isFile (modulePath folder name extension) then some
        (modulePath folder name extension)
      else if files.isFile (packagePath folder name extension) then some
      (packagePath folder name extension) else none := by
  split
  next hmodule =>
    have hentry := h.mem_list_of_module hmodule
    have hsome := (h.descriptorEntry?_eq_some hentry).mpr (.inr ⟨rfl, rfl, hmodule⟩)
    refine get?_descriptors_of_entry hentry hsome ?_
    intro other hother hle file hsome
    obtain ⟨rfl, -, -⟩ | ⟨-, rfl, -⟩ := (h.descriptorEntry?_eq_some hother).mp hsome
    · have heq : other ++ extension = other := List.le_antisymm hle List.le_append_left
      exact absurd (append_right_eq_self.mp heq) h.extension_ne_nil
    · rfl
  next hmodule =>
    split
    next hpackage =>
      have hentry := h.mem_list_of_package hpackage
      have hsome := (h.descriptorEntry?_eq_some hentry).mpr (.inl ⟨rfl, rfl, hpackage⟩)
      refine get?_descriptors_of_entry hentry hsome ?_
      intro other hother hle file hsome
      obtain ⟨-, rfl, -⟩ | ⟨-, rfl, hfile⟩ := (h.descriptorEntry?_eq_some hother).mp hsome
      · rfl
      · exact absurd hfile hmodule
    next hpackage =>
      refine Table.get?_ofList_eq_none fun pair hpair hname => ?_
      obtain ⟨entry, hentry, hsome⟩ := mem_filterMap.mp hpair
      have hsome : files.descriptorEntry? folder extension entry = some (name, pair.2) := by
        rw [hsome, hname]
      obtain ⟨-, hpath, hfile⟩ | ⟨-, hpath, hfile⟩ := (h.descriptorEntry?_eq_some hentry).mp hsome
      · exact hpackage (hpath ▸ hfile)
      · exact hmodule (hpath ▸ hfile)

end Listable

/-- The modules of a folder that are listed, with or without their files, are the ones that are
located. The files are the same, but for a module that is both a package and a file. -/
theorem descriptors_agree_locate? (h : Listable folder name extension) :
    (((files.descriptors folder extension).get? name).isSome = true ↔
        (files.locate? folder name extension).isSome = true) ∧
      ((files.locate? folder name extension).isSome = true ↔
        name ∈ files.submodules folder extension) ∧
      (files.isFile (packagePath folder name extension) = true →
        files.isFile (modulePath folder name extension) = true →
        (files.descriptors folder extension).get? name = some (modulePath folder name extension) ∧
          files.locate? folder name extension = some ⟨packagePath folder name extension, true⟩) ∧
      (¬ (files.isFile (packagePath folder name extension) = true ∧
          files.isFile (modulePath folder name extension) = true) →
        (files.descriptors folder extension).get? name =
          (files.locate? folder name extension).map (·.path)) := by
  have hlocate : files.locate? folder name extension =
      if files.isFile (packagePath folder name extension) then some
        ⟨packagePath folder name extension, true⟩
      else if files.isFile (modulePath folder name extension) then some
      ⟨modulePath folder name extension, false⟩ else none := rfl
  rw [hlocate, h.get?_descriptors, h.mem_submodules_iff]
  cases files.isFile (packagePath folder name extension) <;>
    cases files.isFile (modulePath folder name extension) <;> simp

/-- A folder with the package `m` and the file `m`. -/
def twofold : Files :=
  (({} : Files).addFile ["d", "m.pyi"] []).addFile
    ["d", "m", "__init__.pyi"] []

theorem listable_twofold : Listable "d" "m" ".pyi" where
  folder_ne_nil := by decide +kernel
  folder_zeroless := by decide +kernel
  component :=
    ⟨by decide +kernel, by decide +kernel, by decide +kernel, by decide +kernel, by decide +kernel⟩
  ne_package := by decide +kernel
  extension_ne_nil := by decide +kernel
  extension_slashless := by decide +kernel
  extension_zeroless := by decide +kernel

theorem descriptors_agree_locate?_twofold :
    (twofold.descriptors "d" ".pyi").get? "m" = some (modulePath "d" "m" ".pyi") ∧
      twofold.locate? "d" "m" ".pyi" = some ⟨packagePath "d" "m" ".pyi", true⟩ :=
  (descriptors_agree_locate? listable_twofold).2.2.1 (by decide +kernel) (by decide +kernel)

/-- A module that is located may be listed with another file. -/
theorem descriptors_differ_locate? : ¬ ∀ (files : Files) (folder name extension : Text),
    Listable folder name extension →
      (files.descriptors folder extension).get? name =
        (files.locate? folder name extension).map (·.path) := by
  intro h
  have hsame := h twofold _ _ _ listable_twofold
  rw [listable_twofold.get?_descriptors] at hsame
  exact absurd hsame (by decide +kernel)

end Files

end NameInference
