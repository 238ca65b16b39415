import Mathlib.Data.List.Basic

/-!
Lists cut into consecutive parts of one size.

The full parts are the blocks. What is left over is shorter than a block, and makes a last chunk if
there is any of it.
-/
namespace EventReadout

variable {α β : Type} {size : Nat}

/-- The full parts. -/
def blocks (size : Nat) (xs : List α) : List (List α) :=
  (List.range (xs.length / size)).map fun k => (xs.drop (k * size)).take size

/-- What comes after the last block. -/
def leftover (size : Nat) (xs : List α) : List α := xs.drop (xs.length / size * size)

/-- The list as one part, unless it is empty. -/
def wholePart (xs : List α) : List (List α) := if xs.isEmpty then [] else [xs]

/-- All parts: the blocks, and what is left over. -/
def chunks (size : Nat) (xs : List α) : List (List α) :=
  blocks size xs ++ wholePart (leftover size xs)

theorem blocks_of_lt {xs : List α} (h : xs.length < size) : blocks size xs = [] := by
  rw [blocks, Nat.div_eq_of_lt h]
  rfl

theorem leftover_of_lt {xs : List α} (h : xs.length < size) : leftover size xs = xs := by
  rw [leftover, Nat.div_eq_of_lt h, Nat.zero_mul, List.drop_zero]

theorem length_leftover (size : Nat) (xs : List α) :
    (leftover size xs).length = xs.length % size := by
  rw [leftover, List.length_drop, Nat.mod_eq_sub_div_mul]

theorem length_leftover_lt (hsize : 0 < size) (xs : List α) :
    (leftover size xs).length < size := by
  rw [length_leftover]
  exact Nat.mod_lt _ hsize

theorem length_of_mem_blocks {xs block : List α} (h : block ∈ blocks size xs) :
    block.length = size := by
  obtain ⟨k, hk, rfl⟩ := List.mem_map.1 h
  have hroom : (k + 1) * size ≤ xs.length :=
    Nat.le_trans (Nat.mul_le_mul_right _ (List.mem_range.1 hk)) (Nat.div_mul_le_self _ _)
  rw [Nat.succ_mul] at hroom
  rw [List.length_take, List.length_drop]
  omega

theorem flatten_range_parts (size count : Nat) (xs : List α) :
    ((List.range count).map fun k => (xs.drop (k * size)).take size).flatten =
      xs.take (count * size) := by
  induction count with
  | zero => simp
  | succ count ih =>
    rw [List.range_succ, List.map_append, List.flatten_append, ih, Nat.succ_mul, List.take_add]
    simp

theorem flatten_blocks_append_leftover (size : Nat) (xs : List α) :
    (blocks size xs).flatten ++ leftover size xs = xs := by
  rw [blocks, leftover, flatten_range_parts, List.take_append_drop]

theorem blocks_cons (hsize : 0 < size) {block : List α} (h : block.length = size) (xs : List α) :
    blocks size (block ++ xs) = block :: blocks size xs := by
  have hcount : (block ++ xs).length / size = xs.length / size + 1 := by
    rw [List.length_append, h, Nat.add_div_left _ hsize]
  unfold blocks
  rw [hcount, List.range_succ_eq_map, List.map_cons, List.map_map, Nat.zero_mul, List.drop_zero,
    List.take_left' h]
  congr 1
  apply List.map_congr_left
  intro k _
  have hdrop : (block ++ xs).drop ((k + 1) * size) = xs.drop (k * size) := by
    rw [Nat.succ_mul, Nat.add_comm, ← List.drop_drop, List.drop_left' h]
  exact congrArg (List.take size) hdrop

theorem leftover_cons (hsize : 0 < size) {block : List α} (h : block.length = size)
    (xs : List α) : leftover size (block ++ xs) = leftover size xs := by
  unfold leftover
  rw [List.length_append, h, Nat.add_div_left _ hsize, Nat.succ_mul, Nat.add_comm,
    ← List.drop_drop, List.drop_left' h]

theorem blocks_of_length_eq (hsize : 0 < size) {xs : List α} (h : xs.length = size) :
    blocks size xs = [xs] ∧ leftover size xs = [] := by
  have hshort : ([] : List α).length < size := hsize
  have hblocks := blocks_cons hsize h ([] : List α)
  have hleft := leftover_cons hsize h ([] : List α)
  rw [List.append_nil, blocks_of_lt hshort] at hblocks
  rw [List.append_nil, leftover_of_lt hshort] at hleft
  exact ⟨hblocks, hleft⟩

/-- Full parts in front of a list are its first blocks. -/
theorem blocks_flatten_append (hsize : 0 < size) {parts : List (List α)}
    (h : ∀ part ∈ parts, part.length = size) (xs : List α) :
    blocks size (parts.flatten ++ xs) = parts ++ blocks size xs ∧
      leftover size (parts.flatten ++ xs) = leftover size xs := by
  induction parts with
  | nil => exact ⟨rfl, rfl⟩
  | cons part rest ih =>
    obtain ⟨hblocks, hleft⟩ := ih fun x hx => h x (List.mem_cons_of_mem _ hx)
    have hpart := h part List.mem_cons_self
    rw [List.flatten_cons, List.append_assoc, blocks_cons hsize hpart,
      leftover_cons hsize hpart, hblocks, hleft]
    exact ⟨rfl, rfl⟩

/-- More items fill blocks together with what was left over. -/
theorem blocks_append (hsize : 0 < size) (xs ys : List α) :
    blocks size (xs ++ ys) = blocks size xs ++ blocks size (leftover size xs ++ ys) ∧
      leftover size (xs ++ ys) = leftover size (leftover size xs ++ ys) := by
  have hfull : ∀ part ∈ blocks size xs, part.length = size := fun _ => length_of_mem_blocks
  have hparts := blocks_flatten_append hsize hfull (leftover size xs ++ ys)
  rw [← List.append_assoc, flatten_blocks_append_leftover] at hparts
  exact hparts

theorem chunks_append (hsize : 0 < size) (xs ys : List α) :
    chunks size (xs ++ ys) = blocks size xs ++ chunks size (leftover size xs ++ ys) := by
  obtain ⟨hblocks, hleft⟩ := blocks_append hsize xs ys
  rw [chunks, chunks, hblocks, hleft, List.append_assoc]

theorem blocks_map (f : α → β) (size : Nat) (xs : List α) :
    blocks size (xs.map f) = (blocks size xs).map (List.map f) := by
  simp only [blocks, List.length_map, List.map_map, List.map_drop, List.map_take,
    Function.comp_def]

theorem leftover_map (f : α → β) (size : Nat) (xs : List α) :
    leftover size (xs.map f) = (leftover size xs).map f := by
  rw [leftover, leftover, List.length_map, List.map_drop]

/-- The parts are the whole list, all of them are full but for the last, and none is empty. -/
structure Chunked (size : Nat) (xs : List α) (parts : List (List α)) : Prop where
  flatten : parts.flatten = xs
  full : ∀ part ∈ parts.dropLast, part.length = size
  last : ∀ part ∈ parts.getLast?, 0 < part.length ∧ part.length ≤ size

theorem chunked_chunks (hsize : 0 < size) (xs : List α) : Chunked size xs (chunks size xs) := by
  have hall := flatten_blocks_append_leftover size xs
  unfold chunks wholePart
  cases hleft : leftover size xs with
  | nil =>
    rw [hleft, List.append_nil] at hall
    rw [List.isEmpty_nil, if_pos rfl, List.append_nil]
    refine ⟨hall, fun part hpart => ?_, fun part hpart => ?_⟩
    · exact length_of_mem_blocks (List.dropLast_subset _ hpart)
    · rw [length_of_mem_blocks (List.mem_of_getLast? hpart)]
      exact ⟨hsize, Nat.le_refl _⟩
  | cons x rest =>
    have hshort := length_leftover_lt hsize xs
    rw [hleft] at hall hshort
    rw [List.isEmpty_cons, if_neg (by decide)]
    refine ⟨?_, fun part hpart => ?_, fun part hpart => ?_⟩
    · rw [List.flatten_append, List.flatten_singleton]
      exact hall
    · rw [List.dropLast_concat] at hpart
      exact length_of_mem_blocks hpart
    · rw [List.getLast?_concat, Option.mem_some_iff] at hpart
      rw [← hpart]
      exact ⟨Nat.zero_lt_succ _, Nat.le_of_lt hshort⟩

end EventReadout
