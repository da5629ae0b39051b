import Mathlib.Data.List.Basic
import Mathlib.Tactic

/-!
# Interning with a bounded cache

A table that holds each value once and gives it a row number, read through a cache that forgets
its oldest entries. Whatever the cache has forgotten, a value keeps its row: the table only grows,
and the entries of the cache are rows of the table.
-/

namespace Interner

variable {α : Type}

def row (table : List α) : ℕ → Option α
  | 0 => none
  | n + 1 => table[n]?

def find [DecidableEq α] (table : List α) (value : α) : Option ℕ := (table.idxOf? value).map (· + 1)

structure State (α : Type) where
  table : List α := []
  /-- The entry used last stands at the end. -/
  cache : List (α × ℕ) := []
  cacheBytes : ℕ := 0

/-- The oldest entries go while there are too many of them or they take too many bytes. -/
def evict (size : α → ℕ) (maxEntries maxBytes : ℕ) : List (α × ℕ) → ℕ → List (α × ℕ) × ℕ
  | [], bytes => ([], bytes)
  | entry :: cache, bytes =>
    if cache.length + 1 > maxEntries ∨ bytes > maxBytes then
      evict size maxEntries maxBytes cache (bytes - size entry.1)
    else (entry :: cache, bytes)

def insert [DecidableEq α] (table : List α) (value : α) : ℕ × List α :=
  match find table value with
  | some n => (n, table)
  | none => (table.length + 1, table ++ [value])

def call [DecidableEq α] (size : α → ℕ) (maxEntries maxBytes : ℕ) (s : State α) (value : α) :
    ℕ × State α :=
  match s.cache.lookup value with
  | some n =>
    (n, { s with cache := s.cache.filter (fun entry => entry.1 ≠ value) ++ [(value, n)] })
  | none =>
    let inserted := insert s.table value
    let kept := evict size maxEntries maxBytes (s.cache ++ [(value, inserted.1)])
      (s.cacheBytes + size value)
    (inserted.1, { table := inserted.2, cache := kept.1, cacheBytes := kept.2 })

/-- The entries of the cache are rows. -/
def Sound (s : State α) : Prop := ∀ entry ∈ s.cache, row s.table entry.2 = some entry.1

theorem sound_empty : Sound ({} : State α) := fun _ h => absurd h List.not_mem_nil

theorem row_of_prefix {table table' : List α} (h : table <+: table') {n : ℕ} {value : α}
    (hn : row table n = some value) : row table' n = some value := by
  cases n with
  | zero => cases hn
  | succ n =>
    obtain ⟨rest, rfl⟩ := h
    obtain ⟨hlt, -⟩ := List.getElem?_eq_some_iff.mp hn
    rw [row, List.getElem?_append_left hlt]
    exact hn

theorem row_of_find [DecidableEq α] {table : List α} {value : α} {n : ℕ}
    (h : find table value = some n) :
    row table n = some value := by
  obtain ⟨i, hi, rfl⟩ := Option.map_eq_some_iff.mp h
  rw [row]
  obtain ⟨hlt, hg, -⟩ := List.findIdx?_eq_some_iff_getElem.mp hi
  rw [List.getElem?_eq_getElem hlt]
  exact congrArg some (beq_iff_eq.mp hg)

theorem insert_spec [DecidableEq α] (table : List α) (value : α) :
    table <+: (insert table value).2 ∧
      row (insert table value).2 (insert table value).1 = some value := by
  unfold insert
  split
  · next n hn => exact ⟨List.prefix_rfl, row_of_find hn⟩
  · refine ⟨List.prefix_append _ _, ?_⟩
    show (table ++ [value])[table.length]? = some value
    rw [List.getElem?_append_right le_rfl, Nat.sub_self]
    rfl

theorem mem_of_mem_evict {size : α → ℕ} {maxEntries maxBytes : ℕ} {entry : α × ℕ} :
    ∀ {cache : List (α × ℕ)} {bytes : ℕ},
      entry ∈ (evict size maxEntries maxBytes cache bytes).1 → entry ∈ cache
  | [], _, h => h
  | first :: cache, bytes, h => by
    rw [evict] at h
    split at h
    · exact List.mem_cons_of_mem first (mem_of_mem_evict h)
    · exact h

theorem call_spec [DecidableEq α] (size : α → ℕ) (maxEntries maxBytes : ℕ) {s : State α}
    (hs : Sound s) (value : α) :
    row (call size maxEntries maxBytes s value).2.table (call size maxEntries maxBytes s value).1 =
        some value ∧
      s.table <+: (call size maxEntries maxBytes s value).2.table ∧
      Sound (call size maxEntries maxBytes s value).2 := by
  unfold call
  split
  · next n hn =>
    have hr : row s.table n = some value := hs (value, n) (by
      obtain ⟨l₁, l₂, hl, -⟩ := List.lookup_eq_some_iff.mp hn
      rw [hl]
      simp)
    refine ⟨hr, List.prefix_rfl, fun e he => ?_⟩
    rcases List.mem_append.mp he with he | he
    · exact hs e (List.mem_filter.mp he).1
    · rw [List.mem_singleton.mp he]
      exact hr
  · obtain ⟨hp, hr⟩ := insert_spec s.table value
    refine ⟨hr, hp, fun e he => ?_⟩
    rcases List.mem_append.mp (mem_of_mem_evict he) with he | he
    · exact row_of_prefix hp (hs e he)
    · rw [List.mem_singleton.mp he]
      exact hr

end Interner
