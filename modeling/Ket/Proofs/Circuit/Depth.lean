import Mathlib.Data.List.Chain
import Mathlib.Data.List.Perm.Subperm
import Mathlib.Order.Bounds.Basic
import Ket.Circuit.Depth

/-! Depth, told by chains and by layerings. In a chain each instruction shares a qubit with the one
before it, so a layering needs as many layers as there are instructions in any chain. The layers
that the depth is read from are such a layering, and each instruction ends a chain as long as its
layer. So the depth is the length of a longest chain and the least number of layers. -/

namespace Ket

variable {F : Type}

/-- The instructions share a qubit. -/
def Instruction.Meets (i j : Instruction F) : Prop := ∃ q ∈ i.qubits, q ∈ j.qubits

namespace Circuit

section Specification

/-- Position `p` comes before position `r`, and the instructions there share a qubit. -/
def Precedes (is : List (Instruction F)) (p r : Nat) : Prop :=
  p < r ∧ ∃ i j, is[p]? = some i ∧ is[r]? = some j ∧ i.Meets j

/-- Positions in ascending order. The instructions at neighbouring ones share a qubit. -/
structure Chain (is : List (Instruction F)) (ps : List Nat) : Prop where
  inRange : ∀ p ∈ ps, p < is.length
  linked : ps.IsChain (Precedes is)

/-- Every instruction has one of `d` layers. Of two that share a qubit, the later one has the higher
layer. -/
structure Layering (is : List (Instruction F)) (d : Nat) (layer : Nat → Nat) : Prop where
  inRange : ∀ p < is.length, 1 ≤ layer p ∧ layer p ≤ d
  ascending : ∀ p r, Precedes is p r → layer p < layer r

variable {is : List (Instruction F)} {ps : List Nat}

/-- The layers go up along a chain. -/
theorem Layering.length_le {d : Nat} {layer : Nat → Nat} (h : Layering is d layer)
    (hps : Chain is ps) : ps.length ≤ d := by
  have hup : (ps.map layer).IsChain (· < ·) := (List.isChain_map layer).2
    (hps.linked.imp fun p r => h.ascending p r)
  have hsub : ps.map layer ⊆ List.range' 1 d := by
    intro l hl
    obtain ⟨p, hp, rfl⟩ := List.mem_map.1 hl
    obtain ⟨hpos, hle⟩ := h.inRange p (hps.inRange p hp)
    exact List.mem_range'_1.2 ⟨hpos, by omega⟩
  have hnodup : (ps.map layer).Nodup := hup.pairwise.imp Nat.ne_of_lt
  simpa using (List.subperm_of_subset hnodup hsub).length_le

/-- One layer for each instruction is always enough. -/
theorem layering_succ (is : List (Instruction F)) : Layering is is.length Nat.succ where
  inRange _ hp := ⟨Nat.succ_pos _, hp⟩
  ascending _ _ h := Nat.succ_lt_succ h.1

end Specification

namespace Layers

variable (l : Layers) (qs : List Qubit)

theorem getD_foldl_insert (layer : Nat) (last : Std.HashMap Nat Nat) (q : Qubit) :
    (qs.foldl (fun last q => last.insert q.index layer) last).getD q.index 0 =
      if q ∈ qs then layer else last.getD q.index 0 := by
  induction qs generalizing last with
  | nil => rfl
  | cons p qs ih =>
    rw [List.foldl_cons, ih, Std.HashMap.getD_insert]
    by_cases hq : q ∈ qs
    · rw [if_pos hq, if_pos (List.mem_cons_of_mem p hq)]
    · rw [if_neg hq]
      by_cases hp : p = q
      · simp [hp]
      · have hindex : p.index ≠ q.index := Qubit.index_inj.not.2 hp
        simp [hq, Ne.symm hp, hindex]

theorem levelAt_place (q : Qubit) :
    (l.place qs).levelAt q = if q ∈ qs then l.next qs else l.levelAt q :=
  getD_foldl_insert qs _ _ q

/-- The next layer is one above the highest at any of the qubits. -/
theorem next_spec : ∃ m, l.next qs = m + 1 ∧ (∀ q ∈ qs, l.levelAt q ≤ m) ∧
    (m = 0 ∨ ∃ q ∈ qs, l.levelAt q = m) := by
  have hmax : (0 :: qs.map l.levelAt).max? = some ((qs.map l.levelAt).foldl max 0) := rfl
  obtain ⟨hmem, hle⟩ := List.max?_eq_some_iff.1 hmax
  refine ⟨_, rfl, fun q hq => hle _ (List.mem_cons_of_mem 0 (List.mem_map_of_mem hq)), ?_⟩
  rcases List.mem_cons.1 hmem with h | h
  · exact .inl h
  · exact .inr (List.mem_map.1 h)

theorem levelAt_lt_next {q : Qubit} (hq : q ∈ qs) : l.levelAt q < l.next qs := by
  obtain ⟨m, hm, hle, -⟩ := l.next_spec qs
  rw [hm]
  exact Nat.lt_succ_of_le (hle q hq)

end Layers

section Greedy

theorem layers_concat (is : List (Instruction F)) (i : Instruction F) :
    layers (is ++ [i]) = (layers is).place i.qubits := by
  rw [layers, List.foldl_append]
  rfl

/-- The layer that the instruction at a position is put into. -/
def layerOf (is : List (Instruction F)) (p : Nat) : Nat :=
  match is[p]? with
  | none => 0
  | some i => (layers (is.take p)).next i.qubits

variable {is : List (Instruction F)}

theorem layerOf_eq {p : Nat} {i : Instruction F} (hi : is[p]? = some i) :
    layerOf is p = (layers (is.take p)).next i.qubits := by
  rw [layerOf, hi]

theorem layerOf_append {p : Nat} (hp : p < is.length) (js : List (Instruction F)) :
    layerOf (is ++ js) p = layerOf is p := by
  rw [layerOf, layerOf, List.getElem?_append_left hp, List.take_append_of_le_length hp.le]

theorem layerOf_take {p r : Nat} (h : p < r) : layerOf (is.take r) p = layerOf is p := by
  rw [layerOf, layerOf, List.getElem?_take_of_lt h, List.take_take, Nat.min_eq_left h.le]

theorem layerOf_concat (is : List (Instruction F)) (i : Instruction F) :
    layerOf (is ++ [i]) is.length = (layers is).next i.qubits := by
  rw [layerOf_eq List.getElem?_concat_length, List.take_left]

/-- The highest layer of the instructions that satisfy a condition, or 0 if there are none. -/
structure Highest (is : List (Instruction F)) (used : Instruction F → Prop) (m : Nat) : Prop where
  upper : ∀ p i, is[p]? = some i → used i → layerOf is p ≤ m
  attained : m = 0 ∨ ∃ p i, is[p]? = some i ∧ used i ∧ layerOf is p = m

variable {used : Instruction F → Prop} {m : Nat} {i : Instruction F}

theorem highest_nil : Highest ([] : List (Instruction F)) used 0 := by
  refine ⟨fun p i hi => ?_, .inl rfl⟩
  cases hi

theorem getElem?_concat_eq_some {p : Nat} {j : Instruction F} (h : (is ++ [i])[p]? = some j) :
    (p < is.length ∧ is[p]? = some j) ∨ (p = is.length ∧ j = i) := by
  grind

theorem Highest.attained_append (h : Highest is used m) (js : List (Instruction F)) :
    m = 0 ∨ ∃ p i, (is ++ js)[p]? = some i ∧ used i ∧ layerOf (is ++ js) p = m := by
  rcases h.attained with h0 | ⟨p, j, hj, hused, hm⟩
  · exact .inl h0
  · obtain ⟨hp, -⟩ := List.getElem?_eq_some_iff.1 hj
    refine .inr ⟨p, j, ?_, hused, ?_⟩
    · rw [List.getElem?_append_left hp, hj]
    · rw [layerOf_append hp, hm]

theorem Highest.skip (h : Highest is used m) (hi : ¬ used i) : Highest (is ++ [i]) used m := by
  refine ⟨fun p j hj hused => ?_, h.attained_append [i]⟩
  rcases getElem?_concat_eq_some hj with ⟨hp, hj⟩ | ⟨-, rfl⟩
  · rw [layerOf_append hp]
    exact h.upper p j hj hused
  · exact absurd hused hi

theorem Highest.take (h : Highest is used m) (hi : used i) :
    Highest (is ++ [i]) used (max m ((layers is).next i.qubits)) := by
  constructor
  · intro p j hj hused
    rcases getElem?_concat_eq_some hj with ⟨hp, hj⟩ | ⟨rfl, -⟩
    · rw [layerOf_append hp]
      exact Nat.le_trans (h.upper p j hj hused) (Nat.le_max_left _ _)
    · rw [layerOf_concat]
      exact Nat.le_max_right _ _
  · rcases Nat.le_total m ((layers is).next i.qubits) with hle | hle
    · rw [Nat.max_eq_right hle]
      exact .inr ⟨is.length, i, List.getElem?_concat_length, hi, layerOf_concat is i⟩
    · rw [Nat.max_eq_left hle]
      exact h.attained_append [i]

/-- The last layer in use at a qubit is the highest one of the instructions on it. -/
theorem highest_levelAt (is : List (Instruction F)) (q : Qubit) :
    Highest is (q ∈ ·.qubits) ((layers is).levelAt q) := by
  induction is using List.reverseRecOn with
  | nil =>
    have hlevel : (layers ([] : List (Instruction F))).levelAt q = 0 := Std.HashMap.getD_empty
    rw [hlevel]
    exact highest_nil
  | append_singleton is i ih =>
    rw [layers_concat, Layers.levelAt_place]
    split
    · rename_i hq
      have hlt := (layers is).levelAt_lt_next i.qubits hq
      have h := ih.take hq
      rwa [Nat.max_eq_right hlt.le] at h
    · rename_i hq
      exact ih.skip hq

theorem highest_depth (is : List (Instruction F)) :
    Highest is (fun _ => True) (layers is).depth := by
  induction is using List.reverseRecOn with
  | nil => exact highest_nil
  | append_singleton is i ih =>
    rw [layers_concat]
    exact ih.take trivial

theorem levelAt_le_depth (is : List (Instruction F)) (q : Qubit) :
    (layers is).levelAt q ≤ (layers is).depth := by
  rcases (highest_levelAt is q).attained with h | ⟨p, i, hi, -, h⟩
  · rw [h]
    exact Nat.zero_le _
  · rw [← h]
    exact (highest_depth is).upper p i hi trivial

/-- The depth that is kept along the way is the highest of the layers in which the qubits of the
register end. -/
theorem WellFormed.max?_levelAt [Scalar F] {c : Circuit F} (hc : c.WellFormed) :
    ((List.range c.numQubits).map fun q =>
      (layers c.instructions.toList).levelAt (.ofNat q)).max? = some c.depth := by
  refine List.max?_eq_some_iff.2 ⟨?_, List.forall_mem_map.2 fun q _ => levelAt_le_depth _ _⟩
  rcases (highest_depth c.instructions.toList).attained with h | ⟨p, i, hi, -, h⟩
  · refine List.mem_map.2 ⟨0, List.mem_range.2 hc.numQubits_pos, ?_⟩
    exact Nat.le_antisymm (levelAt_le_depth _ _) (h.trans_le (Nat.zero_le _))
  · obtain ⟨q, hq⟩ := List.exists_mem_of_length_pos (i.length_qubits ▸ i.gate.arity_pos)
    have hmem := Array.mem_toList_iff.1 (List.mem_of_getElem? hi)
    have hindex : Qubit.ofNat q.index = q := Qubit.index_inj.1 (Qubit.index_ofNat q.index_lt)
    refine List.mem_map.2 ⟨q.index, List.mem_range.2 ((hc.instructions i hmem).inRange q hq), ?_⟩
    rw [hindex]
    exact Nat.le_antisymm (levelAt_le_depth _ q)
      (h.symm.trans_le ((highest_levelAt _ q).upper p i hi hq))

/-- A later instruction on the same qubit is put above the last layer in use there. -/
theorem Precedes.layerOf_lt {p r : Nat} (h : Precedes is p r) : layerOf is p < layerOf is r := by
  obtain ⟨hlt, i, j, hi, hj, q, hqi, hqj⟩ := h
  have hi' : (is.take r)[p]? = some i := by rw [List.getElem?_take_of_lt hlt, hi]
  calc layerOf is p = layerOf (is.take r) p := (layerOf_take hlt).symm
    _ ≤ (layers (is.take r)).levelAt q := (highest_levelAt _ q).upper p i hi' hqi
    _ < (layers (is.take r)).next j.qubits := Layers.levelAt_lt_next _ _ hqj
    _ = layerOf is r := (layerOf_eq hj).symm

/-- An instruction above the first layer has another one on one of its qubits right below. -/
theorem exists_layer_below {p : Nat} (hp : p < is.length) :
    layerOf is p = 1 ∨ ∃ r, Precedes is r p ∧ layerOf is p = layerOf is r + 1 := by
  have hi : is[p]? = some is[p] := List.getElem?_eq_getElem hp
  obtain ⟨m, hm, -, hmax⟩ := (layers (is.take p)).next_spec is[p].qubits
  have hlayer : layerOf is p = m + 1 := (layerOf_eq hi).trans hm
  rcases hmax with rfl | ⟨q, hq, rfl⟩
  · exact .inl hlayer
  rcases (highest_levelAt (is.take p) q).attained with h0 | ⟨r, j, hj, hqj, hr⟩
  · rw [h0] at hlayer
    exact .inl hlayer
  · have hrp : r < p := by
      obtain ⟨hr, -⟩ := List.getElem?_eq_some_iff.1 hj
      exact Nat.lt_of_lt_of_le hr (List.length_take_le p is)
    rw [List.getElem?_take_of_lt hrp] at hj
    rw [layerOf_take hrp] at hr
    refine .inr ⟨r, ⟨hrp, j, _, hj, hi, q, hqj, hq⟩, ?_⟩
    rw [hlayer, hr]

theorem layering_layerOf (is : List (Instruction F)) :
    Layering is (layers is).depth (layerOf is) := by
  refine ⟨fun p hp => ?_, fun p r h => h.layerOf_lt⟩
  have hi : is[p]? = some is[p] := List.getElem?_eq_getElem hp
  refine ⟨?_, (highest_depth is).upper p _ hi trivial⟩
  obtain ⟨m, hm, -⟩ := (layers (is.take p)).next_spec is[p].qubits
  rw [layerOf_eq hi, hm]
  exact Nat.succ_pos m

/-- Each instruction ends a chain as long as its layer. -/
theorem exists_chain (p : Nat) (hp : p < is.length) :
    ∃ ps, Chain is (ps ++ [p]) ∧ (ps ++ [p]).length = layerOf is p := by
  induction p using Nat.strongRecOn with
  | ind p ih =>
    rcases exists_layer_below hp with h | ⟨r, hr, h⟩
    · refine ⟨[], ⟨?_, List.isChain_singleton p⟩, h.symm⟩
      simpa using hp
    · obtain ⟨ps, hps, hlen⟩ := ih r hr.1 (Nat.lt_trans hr.1 hp)
      refine ⟨ps ++ [r], ⟨?_, ?_⟩, ?_⟩
      · intro q hq
        rcases List.mem_append.1 hq with hq | hq
        · exact hps.inRange q hq
        · rwa [List.mem_singleton.1 hq]
      · rw [List.append_assoc]
        exact List.isChain_append_cons_cons.2 ⟨hps.linked, hr, List.isChain_singleton p⟩
      · rw [List.length_append, hlen, h]
        rfl

theorem exists_chain_depth (is : List (Instruction F)) :
    ∃ ps, Chain is ps ∧ ps.length = (layers is).depth := by
  rcases (highest_depth is).attained with h | ⟨p, i, hi, -, h⟩
  · exact ⟨[], ⟨by simp, List.isChain_nil⟩, h.symm⟩
  · obtain ⟨hp, -⟩ := List.getElem?_eq_some_iff.1 hi
    obtain ⟨ps, hps, hlen⟩ := exists_chain p hp
    exact ⟨_, hps, hlen.trans h⟩

end Greedy

theorem Chain.length_le_depth {is : List (Instruction F)} {ps : List Nat} (h : Chain is ps) :
    ps.length ≤ (layers is).depth :=
  (layering_layerOf is).length_le h

theorem Layering.depth_le {is : List (Instruction F)} {d : Nat} {layer : Nat → Nat}
    (h : Layering is d layer) : (layers is).depth ≤ d := by
  obtain ⟨ps, hps, hlen⟩ := exists_chain_depth is
  rw [← hlen]
  exact h.length_le hps

/-- The depth is the length of a longest chain of instructions that share a qubit one after the
other, and the least number of layers that keep apart, in order, all those that share a qubit. -/
theorem depth_eq_longest_chain (c : Circuit F) :
    IsGreatest {m | ∃ ps, Chain c.instructions.toList ps ∧ ps.length = m} c.depth ∧
      IsLeast {d | ∃ layer, Layering c.instructions.toList d layer} c.depth := by
  refine ⟨⟨exists_chain_depth _, ?_⟩, ⟨⟨_, layering_layerOf _⟩, ?_⟩⟩
  · rintro m ⟨ps, hps, rfl⟩
    exact hps.length_le_depth
  · rintro d ⟨layer, h⟩
    exact h.depth_le

/-- The identity, the exchange and the first measurement follow each other. The second measurement
waits for nothing. -/
example : (⟨3, #[.one .i (.ofNat 0), .two .swap (.ofNat 0) (.ofNat 1), .measure (.ofNat 1),
    .measure (.ofNat 2)]⟩ : Circuit Float).depth = 3 := by
  cbv

end Circuit

end Ket
