import EmuFlow.Lib.Keyed
import Mathlib.Data.List.Infix

/-!
# Directory trees

A file system as a finite map from paths to leaves and directories, in which a directory may be
empty and everything has its directory.
-/

/-- What is at a path. -/
inductive FileEntry (α : Type) where
  | leaf (content : α)
  | directory
  deriving DecidableEq

structure DirectoryTree (κ α : Type) where
  entries : List (List κ × FileEntry α)
  nodup : (entries.map Prod.fst).Nodup
  below_root : ∀ e ∈ entries, e.1 ≠ []
  parents : ∀ e ∈ entries, e.1.dropLast ≠ [] → (e.1.dropLast, .directory) ∈ entries

namespace DirectoryTree

open List

variable {κ α : Type} [DecidableEq κ] (tree : DirectoryTree κ α)

def find (path : List κ) : Option (FileEntry α) :=
  if path = [] then some .directory
  else (Keyed.find Prod.fst tree.entries path).map Prod.snd

def leafAt (path : List κ) : Option α :=
  match tree.find path with
  | some (.leaf content) => some content
  | _ => none

/-- `path.is_dir()` -/
def isDirectory (path : List κ) : Bool :=
  match tree.find path with
  | some .directory => true
  | _ => false

def below (path : List κ) : List (List κ × FileEntry α) :=
  (tree.entries.filter fun e => path <+: e.1 ∧ path ≠ e.1).map
    fun e => (e.1.drop path.length, e.2)

def children (path : List κ) : List κ :=
  ((tree.below path).map Prod.fst).filterMap fun rest =>
    if rest.length = 1 then rest.head? else none

/-! ## lookups -/

variable {tree} {path other : List κ} {entry : FileEntry α}

theorem find_eq_some (hpt : path ≠ []) :
    tree.find path = some entry ↔ (path, entry) ∈ tree.entries := by
  unfold find
  rw [if_neg hpt, Option.map_eq_some_iff]
  constructor
  · rintro ⟨e, he, rfl⟩
    obtain ⟨hmem, rfl⟩ := (Keyed.find_eq_some tree.nodup).mp he
    exact hmem
  · intro hmem
    exact ⟨_, (Keyed.find_eq_some tree.nodup).mpr ⟨hmem, rfl⟩, rfl⟩

@[simp] theorem find_nil : tree.find [] = some .directory := rfl

theorem leafAt_eq_some {c : α} : tree.leafAt path = some c ↔ tree.find path = some (.leaf c) := by
  unfold leafAt
  split
  · next h => simp [h]
  · next h =>
    constructor
    · intro hc
      cases hc
    · intro hfind
      exact absurd hfind (h c)

@[simp] theorem isDirectory_eq_true :
    tree.isDirectory path = true ↔ tree.find path = some .directory := by
  unfold isDirectory
  split
  · next h => simp [h]
  · next h => exact iff_of_false (by simp) h

theorem isDirectory_of_prefix (hfind : tree.find path ≠ none) : ∀ {pre : List κ},
    pre <+: path → pre ≠ path → tree.find pre = some .directory := by
  induction path using reverseRecOn with
  | nil =>
    intro pre hpre hne
    exact absurd (prefix_nil.mp hpre) hne
  | append_singleton path name ih =>
    intro pre hpre hne
    have hparent : tree.find path = some .directory := by
      by_cases hroot : path = []
      · rw [hroot, find_nil]
      · obtain ⟨entry, hen⟩ := Option.ne_none_iff_exists'.mp hfind
        have hmem := (find_eq_some (by simp)).mp hen
        have := tree.parents _ hmem (by simpa using hroot)
        rw [dropLast_concat] at this
        exact (find_eq_some hroot).mpr this
    rcases prefix_concat_iff.mp hpre with heq | hpr'
    · exact absurd heq hne
    · by_cases heq : pre = path
      · rw [heq, hparent]
      · exact ih (by rw [hparent]; simp) hpr' heq

theorem mem_below {e : List κ × FileEntry α} :
    e ∈ tree.below path ↔ e.1 ≠ [] ∧ tree.find (path ++ e.1) = some e.2 := by
  unfold below
  rw [mem_map]
  constructor
  · rintro ⟨e', he', rfl⟩
    obtain ⟨hmem, hb⟩ := mem_filter.mp he'
    obtain ⟨⟨rest, hrest⟩, hne⟩ := of_decide_eq_true hb
    have hrest' : e'.1.drop path.length = rest := by rw [← hrest, drop_left]
    refine ⟨?_, ?_⟩
    · intro hnil
      rw [show rest = [] from hrest'.symm.trans hnil, append_nil] at hrest
      exact hne hrest
    · show tree.find (path ++ e'.1.drop path.length) = some e'.2
      rw [hrest', hrest]
      exact (find_eq_some (tree.below_root _ hmem)).mpr hmem
  · rintro ⟨hne, hfind⟩
    have hpt : path ++ e.1 ≠ [] := fun h => hne (append_eq_nil_iff.mp h).2
    refine ⟨(path ++ e.1, e.2), mem_filter.mpr ⟨(find_eq_some hpt).mp hfind, ?_⟩, ?_⟩
    · refine decide_eq_true ⟨prefix_append _ _, fun h => hne ?_⟩
      exact append_right_eq_self.mp h.symm
    · rw [drop_left]

theorem nodup_below : ((tree.below path).map Prod.fst).Nodup := by
  unfold below
  rw [map_map]
  have hs : ((tree.entries.filter fun e => path <+: e.1 ∧ path ≠ e.1).map Prod.fst).Nodup :=
    tree.nodup.sublist (filter_sublist.map Prod.fst)
  rw [show (Prod.fst ∘ fun e : List κ × FileEntry α => (e.1.drop path.length, e.2)) =
    List.drop path.length ∘ Prod.fst from rfl, ← map_map]
  refine hs.map_on ?_
  intro p hp q hq heq
  obtain ⟨e, he, rfl⟩ := mem_map.mp hp
  obtain ⟨e', he', rfl⟩ := mem_map.mp hq
  obtain ⟨⟨rest, hrest⟩, -⟩ := of_decide_eq_true (mem_filter.mp he).2
  obtain ⟨⟨rest', hrest'⟩, -⟩ := of_decide_eq_true (mem_filter.mp he').2
  rw [← hrest, ← hrest', drop_left, drop_left] at heq
  rw [← hrest, ← hrest', heq]

theorem nodup_children : (tree.children path).Nodup := by
  unfold children
  refine nodup_below.filterMap ?_
  intro rest rest' name hn hn'
  rw [Option.mem_def] at hn hn'
  split at hn <;> split at hn'
  · next hlength hl' =>
    obtain ⟨a, rfl⟩ := length_eq_one_iff.mp hlength
    obtain ⟨b, rfl⟩ := length_eq_one_iff.mp hl'
    rw [List.head?_cons, Option.some.injEq] at hn hn'
    rw [hn, hn']
  all_goals first | cases hn | cases hn'

/-- `shutil.rmtree`, or `unlink` of a leaf. -/
def removeTree (tree : DirectoryTree κ α) (root : List κ) : DirectoryTree κ α where
  entries := tree.entries.filter fun e => ¬ root <+: e.1
  nodup := tree.nodup.sublist (filter_sublist.map Prod.fst)
  below_root e he := tree.below_root e (mem_filter.mp he).1
  parents e he hroot := by
    obtain ⟨hmem, hout⟩ := mem_filter.mp he
    refine mem_filter.mpr ⟨tree.parents e hmem hroot, decide_eq_true ?_⟩
    exact fun hpre => of_decide_eq_true hout (hpre.trans ( dropLast_prefix _))

theorem find_removeTree (root : List κ) (ho : other ≠ []) :
    (tree.removeTree root).find other = if root <+: other then none else tree.find other := by
  refine Option.ext fun entry => ?_
  rw [find_eq_some ho]
  show (other, entry) ∈ tree.entries.filter _ ↔ _
  rw [mem_filter]
  split_ifs with hpre
  · simp [hpre]
  · simp [hpre, find_eq_some ho]

theorem find_removeTree_outside {root : List κ} (h : ¬ root <+: other) :
    (tree.removeTree root).find other = tree.find other := by
  by_cases ho : other = []
  · rw [ho, find_nil, find_nil]
  · rw [find_removeTree root ho, if_neg h]

theorem below_removeTree {root : List κ} (h : ¬ root <+: path) (h' : ¬ path <+: root) :
    (tree.removeTree root).below path = tree.below path := by
  unfold below removeTree
  dsimp only
  rw [filter_filter]
  refine congrArg _ (filter_congr fun e _ => ?_)
  rw [Bool.and_eq_left_iff_imp]
  intro hb
  refine decide_eq_true fun hroot => ?_
  rcases prefix_or_prefix_of_prefix (of_decide_eq_true hb).1 hroot with hpre | hpre
  · exact h' hpre
  · exact h hpre

/-! ## renaming -/

def movedPath (source destination path : List κ) : List κ :=
  if source <+: path then destination ++ path.drop source.length else path

theorem movedPath_append (source destination rest : List κ) :
    movedPath source destination (source ++ rest) = destination ++ rest := by
  rw [movedPath, if_pos (prefix_append _ _), drop_left]

theorem movedPath_outside {source destination : List κ} (h : ¬ source <+: path) :
    movedPath source destination path = path := if_neg h

theorem notBelow_of_find_eq_none {pre : List κ} (hn : tree.find pre = none)
    {e : List κ × FileEntry α} (he : e ∈ tree.entries) : ¬ pre <+: e.1 := by
  intro hpre
  have hfind := (find_eq_some (tree.below_root e he)).mpr he
  by_cases heq : pre = e.1
  · rw [heq, hfind] at hn
    cases hn
  · have hdirectory := isDirectory_of_prefix (by rw [hfind]; simp) hpre heq
    rw [hn] at hdirectory
    cases hdirectory

/-- `source.rename(destination)`, to a path beside it where nothing is. -/
def rename (tree : DirectoryTree κ α) (source destination : List κ) :
    Option (DirectoryTree κ α) :=
  if h : source ≠ [] ∧ tree.find source ≠ none ∧ tree.find destination = none ∧
      destination.dropLast = source.dropLast then
    some
      { entries := tree.entries.map fun e => (movedPath source destination e.1, e.2)
        nodup := by
          rw [map_map, show (Prod.fst ∘ fun e : List κ × FileEntry α =>
            (movedPath source destination e.1, e.2)) =
              movedPath source destination ∘ Prod.fst from rfl, ← map_map]
          refine tree.nodup.map_on ?_
          intro p hp q hq heq
          obtain ⟨e, he, rfl⟩ := mem_map.mp hp
          obtain ⟨e', he', rfl⟩ := mem_map.mp hq
          have hout := notBelow_of_find_eq_none h.2.2.1 he
          have hout' := notBelow_of_find_eq_none h.2.2.1 he'
          unfold movedPath at heq
          split_ifs at heq with hmoved hmoved'
          · obtain ⟨rest, hrest⟩ := hmoved
            obtain ⟨rest', hrest'⟩ := hmoved'
            rw [← hrest, ← hrest', drop_left, drop_left, append_right_inj] at heq
            rw [← hrest, ← hrest', heq]
          · exact absurd (heq ▸ prefix_append _ _) hout'
          · exact absurd (heq ▸ prefix_append _ _) hout
          · exact heq
        below_root := by
          intro e he
          obtain ⟨e', he', rfl⟩ := mem_map.mp he
          have hdestination : destination ≠ [] := by
            rintro rfl
            have := h.2.2.1
            rw [find_nil] at this
            cases this
          show movedPath source destination e'.1 ≠ []
          unfold movedPath
          split_ifs
          · exact fun hnil => hdestination (append_eq_nil_iff.mp hnil).1
          · exact tree.below_root e' he'
        parents := by
          have hkeep : ∀ {p}, (p, FileEntry.directory) ∈ tree.entries → ¬ source <+: p →
              (p, FileEntry.directory) ∈ tree.entries.map fun e =>
                (movedPath source destination e.1, e.2) := by
            intro p hp hout
            exact mem_map.mpr ⟨_, hp, by rw [movedPath_outside hout]⟩
          intro e he hroot
          obtain ⟨e', he', rfl⟩ := mem_map.mp he
          by_cases hmoved : source <+: e'.1
          · obtain ⟨rest, hrest⟩ := hmoved
            simp only [← hrest, movedPath_append] at hroot ⊢
            by_cases hnil : rest = []
            · rw [hnil, append_nil, h.2.2.2] at hroot ⊢
              rw [hnil, append_nil] at hrest
              refine hkeep ?_ ?_
              · have := tree.parents e' he'
                rw [← hrest] at this
                exact this hroot
              · intro hpre
                have hlength := hpre.length_le
                have := length_pos_iff.mpr h.1
                rw [length_dropLast] at hlength
                omega
            · have hparent := tree.parents e' he'
              rw [← hrest, dropLast_append_of_ne_nil hnil] at hparent
              rw [dropLast_append_of_ne_nil hnil]
              refine mem_map.mpr ⟨_, hparent fun h' => h.1 (append_eq_nil_iff.mp h').1, ?_⟩
              rw [movedPath_append]
          · simp only [movedPath_outside hmoved] at hroot ⊢
            exact hkeep (tree.parents e' he' hroot)
              fun hpre => hmoved (hpre.trans ( dropLast_prefix _)) }
  else none

/-- Neither path is at or below the other. -/
def Apart (p q : List κ) : Prop := ¬ p <+: q ∧ ¬ q <+: p

omit [DecidableEq κ] in
theorem Apart.symm {p q : List κ} (h : Apart p q) : Apart q p := ⟨h.2, h.1⟩

omit [DecidableEq κ] in
theorem Apart.outside {p q r : List κ} (h : Apart p q) (hp : p <+: r) : ¬ q <+: r := by
  intro hq
  rcases prefix_or_prefix_of_prefix hp hq with hpre | hpre
  · exact h.1 hpre
  · exact h.2 hpre

omit [DecidableEq κ] in
theorem apart_of_length_eq {p q : List κ} (hlength : p.length = q.length) (hne : p ≠ q) :
    Apart p q :=
  ⟨fun hpre => hne (hpre.eq_of_length hlength),
    fun hpre => hne (hpre.eq_of_length hlength.symm).symm⟩

section renamed

variable {renamed : DirectoryTree κ α} {source destination : List κ}

section

variable (h : tree.rename source destination = some renamed)
include h

theorem entries_rename :
    renamed.entries = tree.entries.map fun e => (movedPath source destination e.1, e.2) := by
  unfold rename at h
  split at h
  · rw [← Option.some.inj h]
  · cases h

theorem rename_spec : source ≠ [] ∧ tree.find source ≠ none ∧ tree.find destination = none ∧
      destination.dropLast = source.dropLast := by
  unfold rename at h
  split at h
  · assumption
  · cases h

theorem apart_of_rename : Apart source destination := by
  obtain ⟨hroot, hs, hdestination, hparent⟩ := rename_spec h
  have hr' : destination ≠ [] := by
    rintro rfl
    rw [find_nil] at hdestination
    cases hdestination
  refine apart_of_length_eq ?_ ?_
  · have hlength := congrArg List.length hparent
    rw [length_dropLast, length_dropLast] at hlength
    have := length_pos_iff.mpr hroot
    have := length_pos_iff.mpr hr'
    omega
  · rintro rfl
    exact hs hdestination

theorem below_rename : renamed.below destination = tree.below source := by
  obtain ⟨-, -, hdestination, -⟩ := rename_spec h
  unfold below
  rw [entries_rename h, filter_map, map_map]
  have hf : tree.entries.filter ((fun e : List κ × FileEntry α =>
      decide (destination <+: e.1 ∧ destination ≠ e.1)) ∘
        fun e => (movedPath source destination e.1, e.2)) =
      tree.entries.filter fun e => source <+: e.1 ∧ source ≠ e.1 := by
    refine filter_congr fun e he => ?_
    refine decide_eq_decide.mpr ?_
    show destination <+: movedPath source destination e.1 ∧
      destination ≠ movedPath source destination e.1 ↔ _
    by_cases hsr : source <+: e.1
    · obtain ⟨rest, hrest⟩ := hsr
      rw [← hrest, movedPath_append]
      simp
    · rw [movedPath_outside hsr]
      exact iff_of_false (fun hd => notBelow_of_find_eq_none hdestination he hd.1)
        fun hs => hsr hs.1
  rw [hf]
  refine map_congr_left fun e he => ?_
  obtain ⟨rest, hrest⟩ := (of_decide_eq_true (mem_filter.mp he).2).1
  show (List.drop _ (movedPath source destination e.1), e.2) = _
  rw [← hrest, movedPath_append, drop_left, drop_left]

theorem below_rename_of_apart
    (hs : Apart source path) (hdestination : Apart destination path) :
    renamed.below path = tree.below path := by
  unfold below
  rw [entries_rename h, filter_map, map_map]
  have hmoved : ∀ e : List κ × FileEntry α, path <+: e.1 → movedPath source destination e.1 = e.1 :=
    fun e he => movedPath_outside (hs.symm.outside he)
  have hf : tree.entries.filter ((fun e : List κ × FileEntry α =>
      decide (path <+: e.1 ∧ path ≠ e.1)) ∘ fun e => (movedPath source destination e.1, e.2)) =
      tree.entries.filter fun e => path <+: e.1 ∧ path ≠ e.1 := by
    refine filter_congr fun e _ => ?_
    refine decide_eq_decide.mpr ?_
    show path <+: movedPath source destination e.1 ∧ path ≠ movedPath source destination e.1 ↔ _
    by_cases hu : source <+: e.1
    · obtain ⟨rest, hrest⟩ := hu
      refine iff_of_false (fun hp => ?_) fun hp => hs.outside ⟨rest, hrest⟩ hp.1
      rw [← hrest, movedPath_append] at hp
      exact hdestination.outside (prefix_append _ _) hp.1
    · rw [movedPath_outside hu]
  rw [hf]
  refine map_congr_left fun e he => ?_
  have hpre := (of_decide_eq_true (mem_filter.mp he).2).1
  show (List.drop _ (movedPath source destination e.1), e.2) = _
  rw [hmoved e hpre]

theorem find_rename_destination : renamed.find destination = tree.find source := by
  obtain ⟨hroot, -, hdestination, -⟩ := rename_spec h
  have hr' : destination ≠ [] := by
    rintro rfl
    rw [find_nil] at hdestination
    cases hdestination
  refine Option.ext fun entry => ?_
  rw [find_eq_some hr', find_eq_some hroot, entries_rename h, mem_map]
  constructor
  · rintro ⟨e, he, heq⟩
    obtain ⟨hpt, rfl⟩ := Prod.mk.inj heq
    by_cases hu : source <+: e.1
    · obtain ⟨rest, hrest⟩ := hu
      rw [← hrest, movedPath_append] at hpt
      rw [append_right_eq_self.mp hpt, append_nil] at hrest
      rw [hrest]
      exact he
    · rw [movedPath_outside hu] at hpt
      exact absurd (hpt ▸ prefix_refl _) (notBelow_of_find_eq_none hdestination he)
  · intro he
    refine ⟨_, he, ?_⟩
    have hmoved := movedPath_append source destination []
    rw [append_nil, append_nil] at hmoved
    rw [hmoved]

theorem find_rename_source (hpre : source <+: path) : renamed.find path = none := by
  obtain ⟨hroot, -, -, -⟩ := rename_spec h
  have hpt : path ≠ [] := by
    rintro rfl
    exact hroot (prefix_nil.mp hpre)
  refine Option.eq_none_iff_forall_ne_some.mpr fun entry hfind => ?_
  rw [find_eq_some hpt, entries_rename h, mem_map] at hfind
  obtain ⟨e, he, heq⟩ := hfind
  obtain ⟨hmoved, -⟩ := Prod.mk.inj heq
  by_cases hu : source <+: e.1
  · obtain ⟨rest, hrest⟩ := hu
    rw [← hrest, movedPath_append] at hmoved
    rw [← hmoved] at hpre
    exact (apart_of_rename h).symm.outside (prefix_append _ _) hpre
  · rw [movedPath_outside hu] at hmoved
    exact hu (hmoved ▸ hpre)

theorem find_rename_of_apart (hs : Apart source path) (hdestination : Apart destination path) :
    renamed.find path = tree.find path := by
  by_cases hpt : path = []
  · rw [hpt, find_nil, find_nil]
  · refine Option.ext fun entry => ?_
    rw [find_eq_some hpt, find_eq_some hpt, entries_rename h, mem_map]
    constructor
    · rintro ⟨e, he, heq⟩
      obtain ⟨hmoved, rfl⟩ := Prod.mk.inj heq
      by_cases hu : source <+: e.1
      · obtain ⟨rest, hrest⟩ := hu
        rw [← hrest, movedPath_append] at hmoved
        exact absurd ⟨rest, hmoved⟩ hdestination.1
      · rw [movedPath_outside hu] at hmoved
        rw [← hmoved]
        exact he
    · intro he
      exact ⟨_, he, by rw [movedPath_outside hs.1]⟩

end

end renamed

/-! ## making directories and files -/

/-- `path.mkdir(exist_ok=True)` -/
def makeDirectory (tree : DirectoryTree κ α) (path : List κ) : Option (DirectoryTree κ α) :=
  match hfind : tree.find path with
  | some .directory => some tree
  | some (.leaf _) => none
  | none =>
    if hparent : tree.isDirectory path.dropLast = true then
      some
        { entries := (path, .directory) :: tree.entries
          nodup := by
            rw [map_cons, nodup_cons]
            refine ⟨fun hmem => ?_, tree.nodup⟩
            obtain ⟨e, he, heq⟩ := mem_map.mp hmem
            have hsome := (find_eq_some (tree.below_root e he)).mpr he
            rw [show e.1 = path from heq, hfind] at hsome
            cases hsome
          below_root := by
            refine forall_mem_cons.mpr ⟨?_, tree.below_root⟩
            rintro rfl
            rw [find_nil] at hfind
            cases hfind
          parents := by
            refine forall_mem_cons.mpr ⟨fun hroot => ?_, fun e he hroot => ?_⟩
            · exact mem_cons_of_mem _ ((find_eq_some hroot).mp (isDirectory_eq_true.mp hparent))
            · exact mem_cons_of_mem _ (tree.parents e he hroot) }
    else none

def writeLeaf (tree : DirectoryTree κ α) (path : List κ) (content : α) :
    Option (DirectoryTree κ α) :=
  if h : path ≠ [] ∧ tree.isDirectory path.dropLast = true ∧ tree.isDirectory path = false then
    some
      { entries := (path, .leaf content) :: tree.entries.filter fun e => e.1 ≠ path
        nodup := by
          rw [map_cons, nodup_cons]
          refine ⟨fun hmem => ?_, tree.nodup.sublist (filter_sublist.map Prod.fst)⟩
          obtain ⟨e, he, heq⟩ := mem_map.mp hmem
          exact of_decide_eq_true (mem_filter.mp he).2 heq
        below_root := by
          refine forall_mem_cons.mpr ⟨h.1, fun e he => ?_⟩
          exact tree.below_root e (mem_filter.mp he).1
        parents := by
          have hdirectory : ∀ p, (p, FileEntry.directory) ∈ tree.entries →
              (p, FileEntry.directory) ∈ tree.entries.filter fun e => e.1 ≠ path := by
            intro p hp
            refine mem_filter.mpr ⟨hp, decide_eq_true fun heq => ?_⟩
            have hfind := (find_eq_some (tree.below_root _ hp)).mpr hp
            rw [show p = path from heq] at hfind
            exact Bool.eq_false_iff.mp h.2.2 (isDirectory_eq_true.mpr hfind)
          refine forall_mem_cons.mpr ⟨fun hroot => ?_, fun e he hroot => ?_⟩
          · exact mem_cons_of_mem _ (hdirectory _ ((find_eq_some hroot).mp
              (isDirectory_eq_true.mp h.2.1)))
          · exact mem_cons_of_mem _
              (hdirectory _ (tree.parents e (mem_filter.mp he).1 hroot)) }
  else none

/-- `path.mkdir(parents=True, exist_ok=True)`, from a directory on. -/
def makeDirectories : List κ → List κ → DirectoryTree κ α → Option (DirectoryTree κ α)
  | _, [], tree => some tree
  | done, name :: rest, tree =>
    (tree.makeDirectory (done ++ [name])).bind (makeDirectories (done ++ [name]) rest)

def writeFile (tree : DirectoryTree κ α) (path : List κ) (content : α) :
    Option (DirectoryTree κ α) :=
  (makeDirectories [] path.dropLast tree).bind fun tree => tree.writeLeaf path content

variable {tree' : DirectoryTree κ α}

theorem find_makeDirectory (h : tree.makeDirectory path = some tree') :
    tree'.find other = if other = path then some .directory else tree.find other := by
  unfold makeDirectory at h
  split at h
  · next hfind =>
    rw [← Option.some.inj h]
    split_ifs with heq
    · rw [heq, hfind]
    · rfl
  · cases h
  · next hfind =>
    split at h
    · rw [← Option.some.inj h]
      by_cases ho : other = []
      · subst ho
        simp
      · refine Option.ext fun entry => ?_
        rw [find_eq_some ho]
        show (other, entry) ∈ (path, FileEntry.directory) :: tree.entries ↔ _
        rw [mem_cons, ← find_eq_some ho]
        split_ifs with heq
        · subst heq
          simp [hfind, eq_comm]
        · simp [heq]
    · cases h

theorem find_writeLeaf {content : α} (h : tree.writeLeaf path content = some tree') :
    tree'.find other = if other = path then some (.leaf content) else tree.find other := by
  unfold writeLeaf at h
  split at h
  · next hw =>
    rw [← Option.some.inj h]
    by_cases ho : other = []
    · subst ho
      simp [Ne.symm hw.1]
    · refine Option.ext fun entry => ?_
      rw [find_eq_some ho]
      show (other, entry) ∈ (path, FileEntry.leaf content) :: tree.entries.filter _ ↔ _
      rw [mem_cons, mem_filter, ← find_eq_some ho]
      split_ifs with heq
      · subst heq
        simp [eq_comm]
      · simp [heq]
  · cases h

theorem entries_writeLeaf {content : α} (h : tree.writeLeaf path content = some tree')
    (hn : tree.find path = none) : tree'.entries = (path, .leaf content) :: tree.entries := by
  unfold writeLeaf at h
  split at h
  · rw [← Option.some.inj h]
    refine congrArg _ (filter_eq_self.mpr fun e he => decide_eq_true ?_)
    rintro rfl
    exact notBelow_of_find_eq_none hn he (prefix_refl _)
  · cases h

theorem below_of_entries_eq_append {new : List (List κ × FileEntry α)}
    (h : tree'.entries = new ++ tree.entries) :
    tree'.below path = ((new.filter fun e => path <+: e.1 ∧ path ≠ e.1).map
      fun e => (e.1.drop path.length, e.2)) ++ tree.below path := by
  unfold below
  rw [h, filter_append, map_append]

theorem exists_makeDirectory (hparent : tree.find path.dropLast = some .directory)
    (hl : ∀ c, tree.find path ≠ some (.leaf c)) : ∃ tree',
      tree.makeDirectory path = some tree' := by
  unfold makeDirectory
  split
  · exact ⟨_, rfl⟩
  · next c hfind => exact absurd hfind (hl c)
  · rw [dif_pos (isDirectory_eq_true.mpr hparent)]
    exact ⟨_, rfl⟩

/-- **What making directories changes**: the paths down to the last one are directories. -/
theorem find_makeDirectories : ∀ {rest done : List κ} {tree : DirectoryTree κ α},
    makeDirectories done rest tree = some tree' → ∀ other, tree'.find other =
      if done <+: other ∧ other ≠ done ∧ other <+: done ++ rest then some .directory
      else tree.find other
  | [], done, tree, h, other => by
    rw [makeDirectories] at h
    rw [← Option.some.inj h, if_neg]
    rintro ⟨hdn, hne, hpre⟩
    rw [append_nil] at hpre
    exact hne (hpre.eq_of_length_le hdn.length_le)
  | name :: rest, done, tree, h, other => by
    obtain ⟨next, hnx, h⟩ := Option.bind_eq_some_iff.mp h
    rw [find_makeDirectories h other, find_makeDirectory hnx]
    have hi : (done <+: other ∧ other ≠ done ∧ other <+: done ++ name :: rest) ↔
        (done ++ [name] <+: other ∧ other ≠ done ++ [name] ∧ other <+: done ++ [name] ++ rest) ∨
          other = done ++ [name] := by
      rw [append_assoc, singleton_append]
      constructor
      · rintro ⟨⟨pre, rfl⟩, hne, hpre⟩
        rw [prefix_append_right_inj] at hpre
        cases pre with
        | nil => exact absurd (append_nil done) hne
        | cons a pre =>
          obtain ⟨rfl, hpr'⟩ := cons_prefix_cons.mp hpre
          by_cases hl : pre = []
          · exact .inr (by rw [hl])
          · exact .inl ⟨⟨pre, by simp⟩, by simpa using hl, by
              rw [prefix_append_right_inj]
              exact cons_prefix_cons.mpr ⟨rfl, hpr'⟩⟩
      · rintro (⟨⟨pre, rfl⟩, -, hpre⟩ | rfl)
        · exact ⟨⟨name :: pre, by simp⟩, by simp, hpre⟩
        · refine ⟨prefix_append _ _, by simp, ?_⟩
          rw [prefix_append_right_inj]
          exact cons_prefix_cons.mpr ⟨rfl, nil_prefix⟩
    by_cases hd : done ++ [name] <+: other ∧ other ≠ done ++ [name] ∧
        other <+: done ++ [name] ++ rest
    · rw [if_pos hd, if_pos (hi.mpr (.inl hd))]
    · rw [if_neg hd]
      by_cases hn : other = done ++ [name]
      · rw [if_pos hn, if_pos (hi.mpr (.inr hn))]
      · rw [if_neg hn, if_neg (by rw [hi, not_or]; exact ⟨hd, hn⟩)]

theorem exists_makeDirectories : ∀ {rest done : List κ} {tree : DirectoryTree κ α},
    tree.find done = some .directory → ((∃ tree', makeDirectories done rest tree = some tree') ↔
      ∀ pre, pre <+: rest → ∀ c, tree.find (done ++ pre) ≠ some (.leaf c))
  | [], done, tree, hd => by
    constructor
    · intro _ pre hpre c
      rw [prefix_nil.mp hpre, append_nil, hd]
      simp
    · intro _
      exact ⟨tree, rfl⟩
  | name :: rest, done, tree, hd => by
    have hs : ∀ next, tree.makeDirectory (done ++ [name]) = some next →
        ((∃ tree', makeDirectories (done ++ [name]) rest next = some tree') ↔
          ∀ pre, pre <+: rest → ∀ c, tree.find (done ++ [name] ++ pre) ≠ some (.leaf c)) := by
      intro next hn
      have hl : next.find (done ++ [name]) = some .directory := by
        rw [find_makeDirectory hn, if_pos rfl]
      rw [exists_makeDirectories hl]
      refine forall_congr' fun pre => forall_congr' fun hpre => forall_congr' fun c => ?_
      rw [find_makeDirectory hn]
      split_ifs with heq
      · have hnil : pre = [] := append_right_eq_self.mp heq
        subst hnil
        rw [append_nil]
        unfold makeDirectory at hn
        split at hn
        · next hfind => simp [hfind]
        · cases hn
        · next hfind => simp [hfind]
      · exact Iff.rfl
    constructor
    · rintro ⟨tree', h⟩ pre hpre c
      obtain ⟨next, hn, h⟩ := Option.bind_eq_some_iff.mp h
      cases pre with
      | nil =>
        rw [append_nil, hd]
        simp
      | cons a pre =>
        obtain ⟨rfl, hpr'⟩ := cons_prefix_cons.mp hpre
        have := (hs next hn).mp ⟨tree', h⟩ pre hpr' c
        rwa [append_assoc] at this
    · intro h
      have hnm := h [name] (cons_prefix_cons.mpr ⟨rfl, nil_prefix⟩)
      obtain ⟨next, hn⟩ := exists_makeDirectory (by rw [dropLast_concat]; exact hd) hnm
      obtain ⟨tree', ht'⟩ := (hs next hn).mpr fun pre hpre c => by
        have := h (name :: pre) (cons_prefix_cons.mpr ⟨rfl, hpre⟩) c
        rwa [append_assoc]
      exact ⟨tree', Option.bind_eq_some_iff.mpr ⟨next, hn, ht'⟩⟩

/-- Where a file can be written: no leaf is above it, and it is no directory. -/
def Writable (tree : DirectoryTree κ α) (path : List κ) : Prop :=
  path ≠ [] ∧ (∀ pre, pre <+: path.dropLast → ∀ c, tree.find pre ≠ some (.leaf c)) ∧
    tree.find path ≠ some .directory

theorem find_writeFile {content : α} (h : tree.writeFile path content = some tree')
    (ho : ¬ other <+: path) : tree'.find other = tree.find other := by
  obtain ⟨next, hn, h⟩ := Option.bind_eq_some_iff.mp h
  rw [find_writeLeaf h, find_makeDirectories hn, if_neg, if_neg]
  · rintro ⟨-, -, hpre⟩
    exact ho (hpre.trans ( dropLast_prefix _))
  · rintro rfl
    exact ho (prefix_refl _)

theorem exists_writeFile {content : α} :
    (∃ tree', tree.writeFile path content = some tree') ↔ tree.Writable path := by
  have hd := @exists_makeDirectories κ α _ path.dropLast [] tree find_nil
  simp only [nil_append] at hd
  -- the directories that are made are above the file
  have hs : ∀ {next : DirectoryTree κ α}, path ≠ [] →
      makeDirectories [] path.dropLast tree = some next →
        next.find path = tree.find path ∧ next.find path.dropLast = some .directory := by
    intro next hpt hn
    refine ⟨?_, ?_⟩
    · rw [find_makeDirectories hn, if_neg]
      rintro ⟨-, -, hpre⟩
      have hlength := hpre.length_le
      rw [nil_append, length_dropLast] at hlength
      have := length_pos_iff.mpr hpt
      omega
    · by_cases hroot : path.dropLast = []
      · rw [hroot, find_nil]
      · rw [find_makeDirectories hn, if_pos ⟨ nil_prefix, hroot, prefix_refl _⟩]
  constructor
  · rintro ⟨tree', h⟩
    obtain ⟨next, hn, h⟩ := Option.bind_eq_some_iff.mp h
    unfold writeLeaf at h
    split at h
    · next hw =>
      refine ⟨hw.1, hd.mp ⟨next, hn⟩, fun hdirectory => ?_⟩
      rw [← (hs hw.1 hn).1, ← isDirectory_eq_true] at hdirectory
      exact Bool.eq_false_iff.mp hw.2.2 hdirectory
    · cases h
  · rintro ⟨hpt, hl, hf⟩
    obtain ⟨next, hn⟩ := hd.mpr hl
    obtain ⟨hsm, hparent⟩ := hs hpt hn
    have hw : path ≠ [] ∧ next.isDirectory path.dropLast = true ∧
        next.isDirectory path = false := by
      refine ⟨hpt, isDirectory_eq_true.mpr hparent, Bool.eq_false_iff.mpr fun h => hf ?_⟩
      rw [← hsm]
      exact isDirectory_eq_true.mp h
    exact ⟨_, Option.bind_eq_some_iff.mpr ⟨next, hn, dif_pos hw⟩⟩

end DirectoryTree
