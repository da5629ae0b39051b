import Mathlib.Logic.Relation
import Mathlib.Tactic

/-!
# Arborescences

A directed graph in which every node but the root is entered by one edge and is reached from the
root. It is grown leaf by leaf.
-/

variable {ν ε : Type}

structure Arborescence (source target : ε → ν) (root : ν) (nodes : List ν) (edges : List ε) :
    Prop where
  root_mem : root ∈ nodes
  ends : ∀ e ∈ edges, source e ∈ nodes ∧ target e ∈ nodes
  root_free : ∀ e ∈ edges, target e ≠ root
  unique : ∀ e ∈ edges, ∀ e' ∈ edges, target e = target e' → e = e'
  reached : ∀ v ∈ nodes,
    Relation.ReflTransGen (fun a b => ∃ e ∈ edges, source e = a ∧ target e = b) root v

namespace Arborescence

open List

variable {source target : ε → ν} {root : ν} {nodes : List ν} {edges : List ε} {e : ε}

theorem single : Arborescence source target root [root] [] where
  root_mem := mem_singleton_self root
  ends _ he := absurd he not_mem_nil
  root_free _ he := absurd he not_mem_nil
  unique _ he := absurd he not_mem_nil
  reached v hv := by
    rw [mem_singleton.mp hv]

theorem congr (h : Arborescence source target root nodes edges) {nodes' : List ν}
    {edges' : List ε} (hn : ∀ v, v ∈ nodes' ↔ v ∈ nodes) (hed : ∀ e, e ∈ edges' ↔ e ∈ edges) :
    Arborescence source target root nodes' edges' where
  root_mem := (hn root).mpr h.root_mem
  ends e he := by
    obtain ⟨hs, ht⟩ := h.ends e ((hed e).mp he)
    exact ⟨(hn _).mpr hs, (hn _).mpr ht⟩
  root_free e he := h.root_free e ((hed e).mp he)
  unique e he e' he' := h.unique e ((hed e).mp he) e' ((hed e').mp he')
  reached v hv := by
    refine Relation.ReflTransGen.mono ?_ _ _ (h.reached v ((hn v).mp hv))
    rintro a b ⟨e, he, ha⟩
    exact ⟨e, (hed e).mpr he, ha⟩

theorem leaf (h : Arborescence source target root nodes edges) (hsr : source e ∈ nodes)
    (htr : target e ∉ nodes) :
    Arborescence source target root (nodes ++ [target e]) (edges ++ [e]) where
  root_mem := mem_append_left _ h.root_mem
  ends e' he' := by
    rcases List.mem_append.mp he' with he' | he'
    · obtain ⟨hs, ht⟩ := h.ends e' he'
      exact ⟨mem_append_left _ hs, mem_append_left _ ht⟩
    · obtain rfl := mem_singleton.mp he'
      exact ⟨mem_append_left _ hsr, mem_append_right _ (mem_singleton_self _)⟩
  root_free e' he' := by
    rcases List.mem_append.mp he' with he' | he'
    · exact h.root_free e' he'
    · obtain rfl := mem_singleton.mp he'
      rintro hr
      exact htr (hr ▸ h.root_mem)
  unique := by
    have ho : ∀ e' ∈ edges, target e' ≠ target e := by
      intro e' he' heq
      exact htr (heq ▸ (h.ends e' he').2)
    intro a ha b hb heq
    rcases List.mem_append.mp ha with ha | ha <;> rcases List.mem_append.mp hb with hb | hb
    · exact h.unique a ha b hb heq
    · rw [mem_singleton.mp hb] at heq
      exact absurd heq (ho a ha)
    · rw [mem_singleton.mp ha] at heq
      exact absurd heq.symm (ho b hb)
    · rw [mem_singleton.mp ha, mem_singleton.mp hb]
  reached := by
    have hm : ∀ {v}, v ∈ nodes → Relation.ReflTransGen
        (fun a b => ∃ e' ∈ edges ++ [e], source e' = a ∧ target e' = b) root v := by
      intro v hv
      refine Relation.ReflTransGen.mono ?_ _ _ (h.reached v hv)
      rintro a b ⟨e', he', hab⟩
      exact ⟨e', mem_append_left _ he', hab⟩
    intro v hv
    rcases List.mem_append.mp hv with hv | hv
    · exact hm hv
    · obtain rfl := mem_singleton.mp hv
      exact (hm hsr).tail
        ⟨e, mem_append_right _ (mem_singleton_self _), rfl, rfl⟩

end Arborescence
