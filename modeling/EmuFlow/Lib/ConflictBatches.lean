import Mathlib.Data.List.Forall2
import Mathlib.Logic.Relator
import Mathlib.Tactic

/-!
# Conflict-free batches

Tasks that use resources, batched in order so that the tasks of a batch share no resource. First fit
scans the batches so far; for long inputs each task goes behind the last batch that used one of its
resources.
-/

namespace ConflictBatches

open List

variable {ι ρ ρ' : Type} [DecidableEq ρ] [DecidableEq ρ']

structure Task (ι ρ : Type) where
  id : ι
  uses : List ρ

def shares (s t : Task ι ρ) : Bool := s.uses.any fun r => t.uses.contains r

def place (task : Task ι ρ) : List (List (Task ι ρ)) → List (List (Task ι ρ))
  | [] => [[task]]
  | batch :: rest =>
    if batch.any (shares task) then batch :: place task rest
    else (batch ++ [task]) :: rest

def firstFit (tasks : List (Task ι ρ)) : List (List (Task ι ρ)) :=
  tasks.foldl (fun batches task => place task batches) []

/-! ## levels -/

/-- The batches so far, and for each resource the position behind the last batch that used it. -/
structure Levels (ι ρ : Type) where
  next : ρ → Nat
  batches : List (List (Task ι ρ))

def level (next : ρ → Nat) (task : Task ι ρ) : Nat := (task.uses.map next).foldr max 0

def appendAt (task : Task ι ρ) : Nat → List (List (Task ι ρ)) → List (List (Task ι ρ))
  | 0, [] => [[task]]
  | 0, batch :: rest => (batch ++ [task]) :: rest
  | n + 1, [] => [] :: appendAt task n []
  | n + 1, batch :: rest => batch :: appendAt task n rest

def addLevel (state : Levels ι ρ) (task : Task ι ρ) : Levels ι ρ :=
  let position := level state.next task
  { next := fun r => if r ∈ task.uses then position + 1 else state.next r
    batches := appendAt task position state.batches }

def levelled (tasks : List (Task ι ρ)) : List (List (Task ι ρ)) :=
  (tasks.foldl addLevel { next := fun _ => 0, batches := [] }).batches

/-- First fit up to `limit` tasks, levels beyond. -/
def batchesOf (limit : Nat) (tasks : List (Task ι ρ)) : List (List (Task ι ρ)) :=
  if tasks.length ≤ limit then firstFit tasks else levelled tasks

def maximumBatch (batches : List (List (Task ι ρ))) : Nat :=
  (batches.map List.length).foldr max 0

omit [DecidableEq ρ'] in
theorem flatten_place (task : Task ι ρ) (batches : List (List (Task ι ρ))) :
    (place task batches).flatten.Perm (task :: batches.flatten) := by
  induction batches with
  | nil => exact Perm.refl _
  | cons batch rest ih =>
    unfold place
    split
    · rw [flatten_cons, flatten_cons]
      exact (ih.append_left batch).trans perm_middle
    · rw [flatten_cons, flatten_cons, append_assoc, singleton_append]
      exact perm_middle

omit [DecidableEq ρ] [DecidableEq ρ'] in
theorem flatten_appendAt (task : Task ι ρ) (position : Nat) (batches : List (List (Task ι ρ))) :
    (appendAt task position batches).flatten.Perm (task :: batches.flatten) := by
  induction position generalizing batches with
  | zero =>
    cases batches with
    | nil => exact Perm.refl _
    | cons batch rest =>
      simp only [appendAt, flatten_cons, append_assoc, singleton_append]
      exact perm_middle
  | succ n ih =>
    cases batches with
    | nil => exact ih []
    | cons batch rest =>
      simp only [appendAt, flatten_cons]
      exact ((ih rest).append_left batch).trans perm_middle

omit [DecidableEq ρ] [DecidableEq ρ'] in
theorem foldl_flatten_perm {σ : Type} {add : σ → Task ι ρ → σ}
    {b : σ → List (List (Task ι ρ))}
    (ha : ∀ s task, (b (add s task)).flatten.Perm (task :: (b s).flatten))
    (tasks : List (Task ι ρ)) (s : σ) :
    (b (tasks.foldl add s)).flatten.Perm ((b s).flatten ++ tasks) := by
  induction tasks generalizing s with
  | nil => simp
  | cons task rest ih =>
    refine (ih (add s task)).trans (((ha s task).append_right rest).trans ?_)
    exact perm_middle.symm

omit [DecidableEq ρ'] in
theorem flatten_batchesOf (limit : Nat) (tasks : List (Task ι ρ)) :
    (batchesOf limit tasks).flatten.Perm tasks := by
  unfold batchesOf
  split
  · exact foldl_flatten_perm (b := id) (fun _ task => flatten_place task _) tasks []
  · exact foldl_flatten_perm (b := Levels.batches) (fun state task =>
      flatten_appendAt task (level state.next task) state.batches) tasks _

/-! ## no conflict in a batch -/

def Separate (batch : List (Task ι ρ)) : Prop :=
  batch.Pairwise fun s t => s.uses.Disjoint t.uses

omit [DecidableEq ρ'] in
theorem shares_eq_false {s t : Task ι ρ} : shares s t = false ↔ s.uses.Disjoint t.uses := by
  simp [shares, List.Disjoint]

variable {batch : List (Task ι ρ)} {task : Task ι ρ}

omit [DecidableEq ρ] [DecidableEq ρ'] in
theorem Separate.snoc (h : Separate batch)
    (hn : ∀ t ∈ batch, t.uses.Disjoint task.uses) : Separate (batch ++ [task]) :=
  pairwise_append.mpr ⟨h, pairwise_singleton _ _, fun t ht s hs => by
    obtain rfl := mem_singleton.mp hs
    exact hn t ht⟩

variable {batches : List (List (Task ι ρ))}

omit [DecidableEq ρ'] in
theorem place_separate
    (h : ∀ batch ∈ batches, Separate batch) : ∀ batch ∈ place task batches, Separate batch := by
  induction batches with
  | nil => simp [place, Separate]
  | cons batch rest ih =>
    have hr := ih fun b hb => h b (mem_cons_of_mem _ hb)
    have hbt := h batch mem_cons_self
    unfold place
    split
    · exact forall_mem_cons.mpr ⟨hbt, hr⟩
    · next ha =>
      refine forall_mem_cons.mpr ⟨hbt.snoc fun t ht => ?_, fun b hb =>
        h b (mem_cons_of_mem _ hb)⟩
      have hn : ¬ shares task t = true := fun hs => ha (any_eq_true.mpr ⟨t, ht, hs⟩)
      exact (shares_eq_false.mp (Bool.eq_false_iff.mpr hn)).symm

omit [DecidableEq ρ'] in
theorem firstFit_separate (tasks : List (Task ι ρ)) : ∀ batch ∈ firstFit tasks, Separate batch := by
  have hr : ∀ batches : List (List (Task ι ρ)), (∀ batch ∈ batches, Separate batch) →
      ∀ batch ∈ tasks.foldl (fun batches task => place task batches) batches, Separate batch := by
    induction tasks with
    | nil => exact fun _ h => h
    | cons task rest ih => exact fun _ h => ih _ (place_separate h)
  exact hr [] (by simp)

omit [DecidableEq ρ] [DecidableEq ρ'] in
theorem getElem?_appendAt {position : Nat}
    {n : Nat} (h : (appendAt task position batches)[n]? = some batch) :
    batches[n]? = some batch ∨ batch = [] ∨ n = position ∧
      (batch = [task] ∨ ∃ old, batches[position]? = some old ∧ batch = old ++ [task]) := by
  induction position generalizing batches n with
  | zero =>
    cases batches with
    | nil => cases n with
      | zero => exact .inr (.inr ⟨rfl, .inl (Option.some.inj h).symm⟩)
      | succ n => simp [appendAt] at h
    | cons old rest => cases n with
      | zero => exact .inr (.inr ⟨rfl, .inr ⟨old, rfl, (Option.some.inj h).symm⟩⟩)
      | succ n => exact .inl h
  | succ position ih =>
    cases batches with
    | nil => cases n with
      | zero => exact .inr (.inl (Option.some.inj h).symm)
      | succ n =>
        rcases @ih [] n h with h | h | ⟨rfl, h⟩
        · simp at h
        · exact .inr (.inl h)
        · rcases h with h | ⟨old, ho, -⟩
          · exact .inr (.inr ⟨rfl, .inl h⟩)
          · simp at ho
    | cons old rest => cases n with
      | zero => exact .inl h
      | succ n =>
        rcases ih h with h | h | ⟨rfl, h⟩
        · exact .inl h
        · exact .inr (.inl h)
        · exact .inr (.inr ⟨rfl, h⟩)

/-- The batches are without conflicts and each resource is free from its position on. -/
structure Levels.Spaced (state : Levels ι ρ) : Prop where
  separate : ∀ batch ∈ state.batches, Separate batch
  before : ∀ (n : Nat) batch, state.batches[n]? = some batch →
    ∀ t ∈ batch, ∀ r ∈ t.uses, n < state.next r

omit [DecidableEq ρ] [DecidableEq ρ'] in
theorem next_le_level {next : ρ → Nat} {r : ρ} (h : r ∈ task.uses) : next r ≤ level next task := by
  have hle : ∀ {l : List Nat} {k : Nat}, k ∈ l → k ≤ l.foldr max 0 := by
    intro l
    induction l with
    | nil => simp
    | cons a l ih =>
      intro k hk
      rcases mem_cons.mp hk with rfl | hk
      · exact le_max_left _ _
      · exact (ih hk).trans (le_max_right _ _)
  exact hle (mem_map_of_mem h)

omit [DecidableEq ρ'] in
theorem Levels.Spaced.addLevel {state : Levels ι ρ} (h : state.Spaced) (task : Task ι ρ) :
    (addLevel state task).Spaced := by
  -- the tasks of the batch at the level end there, and the new task starts behind its resources
  have hf : ∀ old, state.batches[level state.next task]? = some old →
      ∀ t ∈ old, t.uses.Disjoint task.uses := fun old ho t ht r hr hr' =>
    absurd (h.before _ old ho t ht r hr) (Nat.not_lt.mpr (next_le_level hr'))
  have hg : ∀ r n, n < state.next r → n < (ConflictBatches.addLevel state task).next r := by
    intro r n hn
    show n < if r ∈ task.uses then level state.next task + 1 else state.next r
    split
    · next hr => exact Nat.lt_succ_of_lt (hn.trans_le (next_le_level hr))
    · exact hn
  have hnw : ∀ r ∈ task.uses, level state.next task <
      (ConflictBatches.addLevel state task).next r := by
    intro r hr
    show _ < if r ∈ task.uses then level state.next task + 1 else state.next r
    rw [if_pos hr]
    exact Nat.lt_succ_self _
  constructor
  · intro batch hb
    obtain ⟨n, hn⟩ := List.getElem?_of_mem hb
    rcases getElem?_appendAt hn with hn | rfl | ⟨-, rfl | ⟨old, ho, rfl⟩⟩
    · exact h.separate batch (mem_of_getElem? hn)
    · exact List.Pairwise.nil
    · exact pairwise_singleton _ _
    · exact (h.separate old (mem_of_getElem? ho)).snoc (hf old ho)
  · intro n batch hn t ht r hr
    rcases getElem?_appendAt hn with hn | rfl | ⟨rfl, rfl | ⟨old, ho, rfl⟩⟩
    · exact hg r n (h.before n batch hn t ht r hr)
    · simp at ht
    · obtain rfl := mem_singleton.mp ht
      exact hnw r hr
    · rcases List.mem_append.mp ht with ht | ht
      · exact hg r _ (h.before _ old ho t ht r hr)
      · obtain rfl := mem_singleton.mp ht
        exact hnw r hr

omit [DecidableEq ρ'] in
theorem levelled_separate (tasks : List (Task ι ρ)) : ∀ batch ∈ levelled tasks, Separate batch := by
  have hr : ∀ state : Levels ι ρ, state.Spaced → (tasks.foldl addLevel state).Spaced := by
    induction tasks with
    | nil => exact fun _ h => h
    | cons task rest ih => exact fun _ h => ih _ (h.addLevel task)
  exact (hr { next := fun _ => 0, batches := [] } ⟨by simp, by simp⟩).separate

omit [DecidableEq ρ'] in
/-- No two tasks of a batch share a resource. -/
theorem batchesOf_separate (limit : Nat) (tasks : List (Task ι ρ)) :
    ∀ batch ∈ batchesOf limit tasks, Separate batch := by
  unfold batchesOf
  split
  · exact firstFit_separate tasks
  · exact levelled_separate tasks

/-! ## renaming the resources -/

omit [DecidableEq ρ] [DecidableEq ρ'] in
/-- The two tasks have one name and use related resources. -/
structure Task.Rel (R : ρ → ρ' → Prop) (s : Task ι ρ) (t : Task ι ρ') : Prop where
  id_eq : s.id = t.id
  forward : ∀ r ∈ s.uses, ∃ r' ∈ t.uses, R r r'
  backward : ∀ r' ∈ t.uses, ∃ r ∈ s.uses, R r r'

section

variable {R : ρ → ρ' → Prop} (hR : Relator.BiUnique R)
include hR

variable {s : Task ι ρ}

omit [DecidableEq ρ] [DecidableEq ρ'] in
theorem mem_uses_iff {t : Task ι ρ'} (h : s.Rel R t) {r : ρ} {r' : ρ'}
    (hr : R r r') : r ∈ s.uses ↔ r' ∈ t.uses := by
  constructor
  · intro hm
    obtain ⟨q, hq, hrq⟩ := h.forward r hm
    rwa [hR.2 hr hrq]
  · intro hm
    obtain ⟨q, hq, hqr⟩ := h.backward r' hm
    rwa [hR.1 hr hqr]

theorem shares_iff {s t : Task ι ρ} {s' t' : Task ι ρ'} (hs : s.Rel R s') (ht : t.Rel R t') :
    shares s t = shares s' t' := by
  rw [Bool.eq_iff_iff]
  simp only [shares, any_eq_true, contains_iff_mem]
  constructor
  · rintro ⟨r, hrs, hrt⟩
    obtain ⟨r', hr', hrr'⟩ := hs.forward r hrs
    exact ⟨r', hr', (mem_uses_iff hR ht hrr').mp hrt⟩
  · rintro ⟨r', hrs, hrt⟩
    obtain ⟨r, hr, hrr'⟩ := hs.backward r' hrs
    exact ⟨r, hr, (mem_uses_iff hR ht hrr').mpr hrt⟩

variable {batches' : List (List (Task ι ρ'))} {s' : Task ι ρ'}

theorem place_rel (hs : s.Rel R s')
    {batches : List (List (Task ι ρ))}
    (h : Forall₂ (Forall₂ (Task.Rel R)) batches batches') :
    Forall₂ (Forall₂ (Task.Rel R)) (place s batches) (place s' batches') := by
  induction h with
  | nil => exact .cons (.cons hs .nil) .nil
  | @cons batch batch' rest rest' hb hr ih =>
    have ha : batch.any (shares s) = batch'.any (shares s') := by
      clear ih hr
      induction hb with
      | nil => rfl
      | cons ht _ ih => rw [any_cons, any_cons, shares_iff hR hs ht, ih]
    unfold place
    rw [ha]
    split
    · exact .cons hb ih
    · exact .cons (rel_append hb (.cons hs .nil)) hr

variable {tasks : List (Task ι ρ)} {tasks' : List (Task ι ρ')}

theorem firstFit_rel (h : Forall₂ (Task.Rel R) tasks tasks') :
    Forall₂ (Forall₂ (Task.Rel R)) (firstFit tasks) (firstFit tasks') :=
  rel_foldl (R := Task.Rel R) (P := Forall₂ (Forall₂ (Task.Rel R)))
    (fun _ _ hb _ _ ht => place_rel hR ht hb) .nil h

omit [DecidableEq ρ] [DecidableEq ρ'] hR in
theorem level_rel (hs : s.Rel R s') {next : ρ → Nat}
    {next' : ρ' → Nat} (hn : ∀ r r', R r r' → next r = next' r') :
    level next s = level next' s' := by
  have hle : ∀ {l : List Nat} {n : Nat}, l.foldr max 0 ≤ n ↔ ∀ k ∈ l, k ≤ n := by
    intro l n
    induction l with
    | nil => simp
    | cons k l ih => simp [ih]
  refine le_antisymm (hle.mpr fun k hk => ?_) (hle.mpr fun k hk => ?_)
  · obtain ⟨r, hr, rfl⟩ := mem_map.mp hk
    obtain ⟨r', hr', hrr'⟩ := hs.forward r hr
    rw [hn r r' hrr']
    exact hle.mp le_rfl _ (mem_map_of_mem hr')
  · obtain ⟨r', hr', rfl⟩ := mem_map.mp hk
    obtain ⟨r, hr, hrr'⟩ := hs.backward r' hr'
    rw [← hn r r' hrr']
    exact hle.mp le_rfl _ (mem_map_of_mem hr)

omit [DecidableEq ρ] [DecidableEq ρ'] hR in
theorem appendAt_rel (hs : s.Rel R s') (position : Nat)
    {batches : List (List (Task ι ρ))}
    (h : Forall₂ (Forall₂ (Task.Rel R)) batches batches') :
    Forall₂ (Forall₂ (Task.Rel R)) (appendAt s position batches)
      (appendAt s' position batches') := by
  induction position generalizing batches batches' with
  | zero =>
    cases h with
    | nil => exact .cons (.cons hs .nil) .nil
    | cons hb hr => exact .cons (rel_append hb (.cons hs .nil)) hr
  | succ n ih =>
    cases h with
    | nil => exact .cons .nil (ih .nil)
    | cons hb hr => exact .cons hb (ih hr)

/-- The states of two runs on related tasks. -/
structure Levels.Rel (R : ρ → ρ' → Prop) (s : Levels ι ρ) (t : Levels ι ρ') : Prop where
  next_eq : ∀ r r', R r r' → s.next r = t.next r'
  batches_rel : Forall₂ (Forall₂ (Task.Rel R)) s.batches t.batches

theorem addLevel_rel {s : Levels ι ρ} {s' : Levels ι ρ'} (hs : s.Rel R s') {task : Task ι ρ}
    {task' : Task ι ρ'} (ht : task.Rel R task') :
    (addLevel s task).Rel R (addLevel s' task') := by
  have hl := level_rel ht hs.next_eq
  refine ⟨fun r r' hr' => ?_, ?_⟩
  · simp only [addLevel, hl, mem_uses_iff hR ht hr', hs.next_eq r r' hr']
  · simp only [addLevel, hl]
    exact appendAt_rel ht _ hs.batches_rel

theorem levelled_rel (h : Forall₂ (Task.Rel R) tasks tasks') :
    Forall₂ (Forall₂ (Task.Rel R)) (levelled tasks) (levelled tasks') :=
  (rel_foldl (R := Task.Rel R) (P := Levels.Rel R)
    (fun _ _ hs _ _ ht => addLevel_rel hR hs ht) ⟨fun _ _ _ => rfl, .nil⟩ h).batches_rel

/-- Related tasks are put in related batches. -/
theorem batchesOf_rel (limit : Nat) (h : Forall₂ (Task.Rel R) tasks tasks') :
    Forall₂ (Forall₂ (Task.Rel R)) (batchesOf limit tasks) (batchesOf limit tasks') := by
  unfold batchesOf
  rw [h.length_eq]
  split
  · exact firstFit_rel hR h
  · exact levelled_rel hR h

end

def batchIds (batches : List (List (Task ι ρ))) : List (List ι) :=
  batches.map fun batch => batch.map Task.id

omit [DecidableEq ρ] [DecidableEq ρ'] in
theorem batchIds_eq {R : ρ → ρ' → Prop}
    {batches' : List (List (Task ι ρ'))}
    (h : Forall₂ (Forall₂ (Task.Rel R)) batches batches') :
    batchIds batches = batchIds batches' := by
  unfold batchIds
  induction h with
  | nil => rfl
  | cons hb _ ih =>
    rw [map_cons, map_cons, ih]
    congr 1
    induction hb with
    | nil => rfl
    | cons ht _ ih' => rw [map_cons, map_cons, ht.id_eq, ih']

end ConflictBatches
