import EventReadout.Proofs.Slice.Order
import EventReadout.Slice.Store
import Mathlib.Data.List.Basic

/-! What each operation of a slice store does to the items it holds, in order of arrival. -/
namespace EventReadout

namespace Generation

variable {α : Type}

@[simp] theorem bufferCount_empty (n : Nat) : (empty n : Generation α).bufferCount = n := by
  simp [empty, bufferCount]

@[simp] theorem bucket_empty (n b : Nat) : (empty n : Generation α).bucket b = [] := by
  simp [empty, bucket, List.getD_eq_getElem?_getD, List.getElem?_replicate]
  split <;> rfl

theorem bucket_of_le {g : Generation α} {b : Nat} (h : g.bufferCount ≤ b) : g.bucket b = [] := by
  rw [bucket, List.getD_eq_getElem?_getD, List.getElem?_eq_none h, Option.getD_none]

theorem add?_eq_some {g : Generation α} {b : Nat} (h : b < g.bufferCount) (x : α) :
    ∃ g', g.add? b x = some g' ∧ g'.bufferCount = g.bufferCount ∧
      ∀ c, g'.bucket c = g.bucket c ++ if c = b then [x] else [] := by
  refine ⟨⟨g.buckets.modify b (· ++ [x])⟩, by rw [add?, if_pos h], by simp [bufferCount], ?_⟩
  intro c
  simp only [bucket, List.getD_eq_getElem?_getD, List.getElem?_modify]
  by_cases hc : b = c
  · subst hc
    rw [bufferCount] at h
    simp [List.getElem?_eq_getElem h]
  · simp [hc, Ne.symm hc]

@[simp] theorem takeBuffer_fst (g : Generation α) (b : Nat) : (g.takeBuffer b).1 = g.bucket b := rfl

@[simp] theorem bufferCount_takeBuffer (g : Generation α) (b : Nat) :
    (g.takeBuffer b).2.bufferCount = g.bufferCount := by
  simp [takeBuffer, bufferCount]

theorem bucket_takeBuffer (g : Generation α) (b c : Nat) :
    (g.takeBuffer b).2.bucket c = if c = b then [] else g.bucket c := by
  simp only [takeBuffer, bucket, List.getD_eq_getElem?_getD, List.getElem?_set]
  by_cases hc : b = c
  · subst hc
    rw [if_pos rfl, if_pos rfl]
    split <;> rfl
  · rw [if_neg hc, if_neg (Ne.symm hc)]

theorem toList_eq_flatMap (g : Generation α) :
    g.toList = (List.range g.bufferCount).flatMap g.bucket := by
  have h : g.buckets = (List.range g.bufferCount).map g.bucket := by
    refine List.ext_getElem (by simp [bufferCount]) fun i hi _ => ?_
    simp [bucket, hi]
  rw [toList, List.flatMap_def, ← h]

theorem eq_of_bucket_eq {g g' : Generation α} (hcount : g.bufferCount = g'.bufferCount)
    (hbucket : ∀ b, g.bucket b = g'.bucket b) : g = g' := by
  have hbuckets : g.buckets = g'.buckets := by
    refine List.ext_getElem hcount fun b hb hb' => ?_
    simpa [bucket, hb, hb'] using hbucket b
  exact congrArg Generation.mk hbuckets

/-- Buckets that hold what belongs to them come out in the order of the slices. -/
theorem pairwise_toList {slice : α → TimeSlice} {g : Generation α} {w : Nat}
    (h : ∀ b, ∀ x ∈ g.bucket b, slice x = ⟨w, b⟩) :
    g.toList.Pairwise fun x y => slice x ≤ slice y := by
  rw [toList_eq_flatMap, List.pairwise_flatMap]
  refine ⟨fun b _ => List.pairwise_of_forall_mem_list fun x hx y hy => ?_,
    List.pairwise_lt_range.imp fun {b c} hbc x hx y hy => ?_⟩
  · rw [h b x hx, h b y hy]
  · rw [h b x hx, h c y hy]
    exact Or.inr ⟨rfl, Nat.le_of_lt hbc⟩

private theorem flatMap_range_ite (n c : Nat) (f : Nat → List α) :
    ((List.range n).flatMap fun b => if b = c then f b else []) = if c < n then f c else [] := by
  induction n with
  | zero => simp
  | succ n ih =>
    rw [List.range_succ, List.flatMap_append, ih]
    by_cases hc : n = c
    · simp [hc]
    · have : c < n + 1 ↔ c < n := by omega
      simp [hc, this]

theorem filter_toList {slice : α → TimeSlice} {g : Generation α} {w : Nat}
    (h : ∀ b, ∀ x ∈ g.bucket b, slice x = ⟨w, b⟩) (t : TimeSlice) :
    g.toList.filter (slice · = t) = if w = t.wrap then g.bucket t.buffer else [] := by
  have hbucket (b : Nat) : (g.bucket b).filter (slice · = t) =
      if b = t.buffer then (if w = t.wrap then g.bucket b else []) else [] := by
    by_cases ht : t = ⟨w, b⟩
    · rw [if_pos (by rw [ht]), if_pos (by rw [ht]), List.filter_eq_self]
      intro x hx
      simpa [ht] using h b x hx
    · have hnil : (g.bucket b).filter (slice · = t) = [] := by
        rw [List.filter_eq_nil_iff]
        intro x hx
        simpa [h b x hx] using Ne.symm ht
      rw [hnil]
      by_cases hb : b = t.buffer
      · have hw : w ≠ t.wrap := fun hw => ht (by rw [hw, hb])
        rw [if_pos hb, if_neg hw]
      · rw [if_neg hb]
  rw [toList_eq_flatMap, List.filter_flatMap]
  simp only [hbucket, flatMap_range_ite]
  by_cases hlt : t.buffer < g.bufferCount
  · rw [if_pos hlt]
  · rw [if_neg hlt, bucket_of_le (by omega)]
    simp

end Generation

namespace SliceStore

variable {α : Type}

/-! Residents as a map from generations. -/

theorem contains_iff_mem {s : SliceStore α} {w : Nat} : s.contains w = true ↔ w ∈ s.wraps := by
  simp [contains]

theorem generation?_isSome_iff {s : SliceStore α} {w : Nat} :
    (s.generation? w).isSome ↔ w ∈ s.wraps := by
  simp [generation?, wraps, List.lookup_isSome_iff]

theorem mem_wraps_of_generation? {s : SliceStore α} {w : Nat} {g : Generation α}
    (h : s.generation? w = some g) : w ∈ s.wraps :=
  generation?_isSome_iff.1 (by simp [h])

theorem exists_generation? {s : SliceStore α} {w : Nat} (h : w ∈ s.wraps) :
    ∃ g, s.generation? w = some g :=
  Option.isSome_iff_exists.1 (generation?_isSome_iff.2 h)

private theorem lookup_cons (w v : Nat) (g : Generation α) (rs : List (Nat × Generation α)) :
    ((w, g) :: rs).lookup v = if v = w then some g else rs.lookup v := by
  rw [List.lookup_cons]
  by_cases hv : v = w
  · simp [hv]
  · simp [hv, beq_eq_false_iff_ne.2 hv]

theorem lookup_insert (w v : Nat) (g : Generation α) (rs : List (Nat × Generation α)) :
    (insert w g rs).lookup v = if v = w then some g else rs.lookup v := by
  induction rs with
  | nil => exact lookup_cons w v g []
  | cons p rs ih =>
    obtain ⟨u, h⟩ := p
    rw [insert]
    by_cases hlt : w < u
    · rw [if_pos hlt, lookup_cons]
    · by_cases heq : w = u
      · subst heq
        rw [if_neg hlt, if_pos rfl, lookup_cons, lookup_cons]
        by_cases hv : v = w
        · rw [if_pos hv, if_pos hv]
        · rw [if_neg hv, if_neg hv, if_neg hv]
      · rw [if_neg hlt, if_neg heq, lookup_cons, lookup_cons, ih]
        by_cases hv : v = w
        · subst hv
          rw [if_neg heq, if_pos rfl, if_pos rfl]
        · rw [if_neg hv, if_neg hv]

theorem mem_keys_insert {w v : Nat} {g : Generation α} {rs : List (Nat × Generation α)} :
    v ∈ (insert w g rs).map (·.1) ↔ v = w ∨ v ∈ rs.map (·.1) := by
  induction rs with
  | nil => simp [insert]
  | cons p rs ih =>
    obtain ⟨u, h⟩ := p
    rw [insert]
    split
    · simp
    · split
      · next heq => simp [heq]
      · simp only [List.map_cons, List.mem_cons, ih]
        tauto

theorem ascending_insert {w : Nat} {g : Generation α} {rs : List (Nat × Generation α)}
    (h : (rs.map (·.1)).Pairwise (· < ·)) : ((insert w g rs).map (·.1)).Pairwise (· < ·) := by
  induction rs with
  | nil => simp [insert]
  | cons p rs ih =>
    obtain ⟨u, k⟩ := p
    rw [insert]
    simp only [List.map_cons, List.pairwise_cons] at h
    split
    · simp only [List.map_cons, List.pairwise_cons, List.mem_cons, forall_eq_or_imp]
      refine ⟨⟨by assumption, fun v hv => ?_⟩, h⟩
      have := h.1 v hv
      omega
    · split
      · next heq =>
        subst heq
        simp only [List.map_cons, List.pairwise_cons]
        exact h
      · simp only [List.map_cons, List.pairwise_cons]
        refine ⟨fun v hv => ?_, ih h.2⟩
        rcases mem_keys_insert.1 hv with rfl | hv
        · omega
        · exact h.1 v hv

theorem keys_insert_of_mem {w : Nat} {g : Generation α} {rs : List (Nat × Generation α)}
    (h : (rs.map (·.1)).Pairwise (· < ·)) (hw : w ∈ rs.map (·.1)) :
    (insert w g rs).map (·.1) = rs.map (·.1) := by
  induction rs with
  | nil => simp at hw
  | cons p rs ih =>
    obtain ⟨u, k⟩ := p
    simp only [List.map_cons, List.pairwise_cons, List.mem_cons] at h hw
    rw [insert]
    rcases hw with rfl | hw
    · simp
    · have hlt := h.1 w hw
      rw [if_neg (by omega), if_neg (by omega), List.map_cons, List.map_cons, ih h.2 hw]

theorem lookup_filter (p : Nat → Bool) (v : Nat) (rs : List (Nat × Generation α)) :
    (rs.filter fun r => p r.1).lookup v = if p v then rs.lookup v else none := by
  induction rs with
  | nil => simp
  | cons r rs ih =>
    obtain ⟨u, k⟩ := r
    rw [List.filter_cons, lookup_cons]
    by_cases hu : p u = true
    · rw [if_pos hu, lookup_cons, ih]
      by_cases hv : v = u
      · subst hv
        rw [if_pos rfl, if_pos rfl, if_pos hu]
      · rw [if_neg hv, if_neg hv]
    · rw [if_neg hu, ih]
      by_cases hv : v = u
      · subst hv
        rw [if_neg hu, if_neg hu]
      · rw [if_neg hv]

/-- Items of one slice; none if its generation is not resident. -/
def bucket (s : SliceStore α) (t : TimeSlice) : List α :=
  ((s.generation? t.wrap).map (·.bucket t.buffer)).getD []

/-- The store holds exactly these items, oldest first, each under its own slice. -/
structure Holds (slice : α → TimeSlice) (s : SliceStore α) (xs : List α) : Prop where
  ascending : s.wraps.Pairwise (· < ·)
  bufferCount : ∀ w g, s.generation? w = some g → g.bufferCount = s.buffers
  bucket : ∀ t, s.bucket t = xs.filter (slice · = t)

namespace Holds

variable {slice : α → TimeSlice} {s : SliceStore α} {xs : List α}

theorem empty (n : Nat) : Holds slice ({ buffers := n } : SliceStore α) [] where
  ascending := List.Pairwise.nil
  bufferCount w g h := by simp [generation?] at h
  bucket t := by simp [SliceStore.bucket, generation?]

theorem bucket_eq (h : s.Holds slice xs) {w : Nat} {g : Generation α}
    (hg : s.generation? w = some g) (b : Nat) : g.bucket b = xs.filter (slice · = ⟨w, b⟩) := by
  rw [← h.bucket ⟨w, b⟩, SliceStore.bucket, hg, Option.map_some, Option.getD_some]

theorem resident_of_mem (h : s.Holds slice xs) {x : α} (hx : x ∈ xs) :
    (slice x).wrap ∈ s.wraps ∧ (slice x).buffer < s.buffers := by
  have hmem : x ∈ s.bucket (slice x) := by
    rw [h.bucket]
    simpa using hx
  cases hg : s.generation? (slice x).wrap with
  | none => simp [SliceStore.bucket, hg] at hmem
  | some g =>
    refine ⟨mem_wraps_of_generation? hg, ?_⟩
    by_contra hlt
    have hnil : g.bucket (slice x).buffer = [] :=
      Generation.bucket_of_le (by rw [h.bufferCount _ g hg]; omega)
    simp [SliceStore.bucket, hg, hnil] at hmem

/-- One generation comes in place of what was there, and the other buckets stay. -/
theorem insert (h : s.Holds slice xs) {ys : List α} {w : Nat} {g : Generation α}
    (hcount : g.bufferCount = s.buffers) (hown : ∀ b, g.bucket b = ys.filter (slice · = ⟨w, b⟩))
    (hothers : ∀ t : TimeSlice, t.wrap ≠ w →
      ys.filter (slice · = t) = xs.filter (slice · = t)) :
    ({ s with residents := SliceStore.insert w g s.residents } : SliceStore α).Holds slice ys := by
  have hlook (v : Nat) :
      ({ s with residents := SliceStore.insert w g s.residents } : SliceStore α).generation? v =
        if v = w then some g else s.generation? v := lookup_insert w v g s.residents
  refine ⟨ascending_insert h.ascending, ?_, ?_⟩
  · intro v k hk
    rw [hlook] at hk
    split at hk
    · rw [← Option.some.inj hk, hcount]
    · exact h.bufferCount v k hk
  · intro t
    rw [SliceStore.bucket, hlook]
    by_cases ht : t.wrap = w
    · rw [if_pos ht, Option.map_some, Option.getD_some, hown, ← ht]
    · rw [if_neg ht, ← SliceStore.bucket, h.bucket, hothers t ht]

end Holds

/-! The operations. -/

theorem Holds.openWrap {slice : α → TimeSlice} {s : SliceStore α} {xs : List α}
    (h : s.Holds slice xs) (w : Nat) :
    (s.openWrap w).Holds slice xs ∧ ∀ v, v ∈ (s.openWrap w).wraps ↔ v = w ∨ v ∈ s.wraps := by
  by_cases hw : s.contains w = true
  · have hmem := contains_iff_mem.1 hw
    rw [SliceStore.openWrap, if_pos hw]
    refine ⟨h, fun v => ⟨Or.inr, ?_⟩⟩
    rintro (rfl | hv)
    · exact hmem
    · exact hv
  · have hnone : s.generation? w = none := by
      rw [← Option.not_isSome_iff_eq_none, generation?_isSome_iff, ← contains_iff_mem]
      exact hw
    have hown (b : Nat) :
        (Generation.empty s.buffers).bucket b = xs.filter (slice · = ⟨w, b⟩) := by
      rw [Generation.bucket_empty, ← h.bucket, SliceStore.bucket, hnone, Option.map_none,
        Option.getD_none]
    rw [SliceStore.openWrap, if_neg hw]
    exact ⟨h.insert (Generation.bufferCount_empty _) hown fun _ _ => rfl, fun v => mem_keys_insert⟩

@[simp] theorem buffers_openWrap (s : SliceStore α) (w : Nat) :
    (s.openWrap w).buffers = s.buffers := by
  rw [openWrap]
  split <;> rfl

theorem Holds.add? {slice : α → TimeSlice} {s : SliceStore α} {xs : List α}
    (h : s.Holds slice xs) {x : α} (hw : (slice x).wrap ∈ s.wraps)
    (hb : (slice x).buffer < s.buffers) :
    ∃ s', s.add? (slice x) x = some s' ∧ s'.Holds slice (xs ++ [x]) ∧ s'.wraps = s.wraps ∧
      s'.buffers = s.buffers := by
  obtain ⟨g, hg⟩ := exists_generation? hw
  have hcount := h.bufferCount _ g hg
  obtain ⟨g', hadd, hcount', hbucket⟩ := Generation.add?_eq_some (hcount.symm ▸ hb) x
  have hsplit (t : TimeSlice) : (xs ++ [x]).filter (slice · = t) =
      xs.filter (slice · = t) ++ if slice x = t then [x] else [] := by
    rw [List.filter_append]
    by_cases ht : slice x = t <;> simp [ht]
  have hown (b : Nat) : g'.bucket b = (xs ++ [x]).filter (slice · = ⟨(slice x).wrap, b⟩) := by
    rw [hbucket, h.bucket_eq hg, hsplit]
    simp only [TimeSlice.ext_iff, true_and, eq_comm]
  have hothers (t : TimeSlice) (ht : t.wrap ≠ (slice x).wrap) :
      (xs ++ [x]).filter (slice · = t) = xs.filter (slice · = t) := by
    rw [hsplit, if_neg fun heq => ht (by rw [heq]), List.append_nil]
  exact ⟨_, by simp [SliceStore.add?, hg, hadd],
    h.insert (hcount'.trans hcount) hown hothers, keys_insert_of_mem h.ascending hw, rfl⟩

/-- An item is refused exactly if there is no bucket for it. -/
theorem Holds.add?_eq_none_iff {slice : α → TimeSlice} {s : SliceStore α} {xs : List α}
    (h : s.Holds slice xs) {x : α} :
    s.add? (slice x) x = none ↔ ¬ ((slice x).wrap ∈ s.wraps ∧ (slice x).buffer < s.buffers) := by
  constructor
  · rintro hnone ⟨hw, hb⟩
    obtain ⟨s', hadd, -⟩ := h.add? hw hb
    rw [hnone] at hadd
    cases hadd
  · intro hx
    cases hg : s.generation? (slice x).wrap with
    | none => simp [SliceStore.add?, hg]
    | some g =>
      have hb : ¬ (slice x).buffer < g.bufferCount := by
        rw [h.bufferCount _ g hg]
        exact fun hlt => hx ⟨mem_wraps_of_generation? hg, hlt⟩
      simp [SliceStore.add?, hg, Generation.add?, hb]

/-- Generations are kept or removed as a whole. -/
theorem Holds.filter {slice : α → TimeSlice} {s : SliceStore α} {xs : List α}
    (h : s.Holds slice xs) (p : Nat → Bool) :
    ({ s with residents := s.residents.filter fun r => p r.1 } : SliceStore α).Holds slice
      (xs.filter fun x => p (slice x).wrap) := by
  have hlook (v : Nat) :
      ({ s with residents := s.residents.filter fun r => p r.1 } : SliceStore α).generation? v =
        if p v then s.generation? v else none := lookup_filter p v _
  constructor
  · rw [wraps]
    exact h.ascending.sublist (List.filter_sublist.map _)
  · intro w g hg
    rw [hlook] at hg
    split at hg
    · exact h.bufferCount w g hg
    · cases hg
  · intro t
    rw [SliceStore.bucket, hlook, List.filter_filter]
    by_cases ht : p t.wrap = true
    · rw [if_pos ht, ← SliceStore.bucket, h.bucket]
      apply List.filter_congr
      intro x _
      by_cases hx : slice x = t
      · simp [hx, ht]
      · simp [hx]
    · rw [if_neg ht, Option.map_none, Option.getD_none, eq_comm, List.filter_eq_nil_iff]
      intro x _ hx
      simp only [Bool.and_eq_true, decide_eq_true_eq] at hx
      exact ht (by rw [← hx.1]; exact hx.2)

theorem Holds.drainBuffer {slice : α → TimeSlice} {s : SliceStore α} {xs : List α}
    (h : s.Holds slice xs) (t : TimeSlice) :
    (s.drainBuffer t).1 = xs.filter (slice · = t) ∧
      (s.drainBuffer t).2.Holds slice (xs.filter (slice · ≠ t)) ∧
      (s.drainBuffer t).2.wraps = s.wraps := by
  cases hg : s.generation? t.wrap with
  | none =>
    have hnil : xs.filter (slice · = t) = [] := by
      rw [← h.bucket, SliceStore.bucket, hg, Option.map_none, Option.getD_none]
    have hkeep : xs.filter (slice · ≠ t) = xs := by
      rw [List.filter_eq_nil_iff] at hnil
      exact List.filter_eq_self.2 (by simpa using hnil)
    rw [SliceStore.drainBuffer, hg, hnil, hkeep]
    exact ⟨rfl, h, rfl⟩
  | some g =>
    have hleft (u : TimeSlice) : (xs.filter (slice · ≠ t)).filter (slice · = u) =
        if u = t then [] else xs.filter (slice · = u) := by
      rw [List.filter_filter]
      split
      · next heq => simp [heq]
      · next hne =>
        apply List.filter_congr
        intro x _
        by_cases hx : slice x = u
        · simp [hx, hne]
        · simp [hx]
    have hown (b : Nat) : (g.takeBuffer t.buffer).2.bucket b =
        (xs.filter (slice · ≠ t)).filter (slice · = ⟨t.wrap, b⟩) := by
      rw [Generation.bucket_takeBuffer, hleft, h.bucket_eq hg]
      simp only [TimeSlice.ext_iff, true_and]
    have hothers (u : TimeSlice) (hu : u.wrap ≠ t.wrap) :
        (xs.filter (slice · ≠ t)).filter (slice · = u) = xs.filter (slice · = u) := by
      rw [hleft, if_neg fun heq => hu (by rw [heq])]
    have hcount : (g.takeBuffer t.buffer).2.bufferCount = s.buffers := by
      rw [Generation.bufferCount_takeBuffer, h.bufferCount _ g hg]
    rw [SliceStore.drainBuffer, hg]
    exact ⟨h.bucket_eq hg t.buffer, h.insert hcount hown hothers,
      keys_insert_of_mem h.ascending (mem_wraps_of_generation? hg)⟩

namespace Holds

variable {slice : α → TimeSlice} {s : SliceStore α} {xs : List α}

private theorem flatMap_ite_eq_lookup {β : Type} {w : Nat} (f : Generation α → List β)
    {rs : List (Nat × Generation α)} (h : (rs.map (·.1)).Pairwise (· < ·)) :
    (rs.flatMap fun r => if r.1 = w then f r.2 else []) = ((rs.lookup w).map f).getD [] := by
  induction rs with
  | nil => rfl
  | cons r rs ih =>
    obtain ⟨u, g⟩ := r
    simp only [List.map_cons, List.pairwise_cons] at h
    rw [List.flatMap_cons, ih h.2, List.lookup_cons]
    by_cases hu : u = w
    · subst hu
      have hnone : rs.lookup u = none := by
        rw [List.lookup_eq_none_iff]
        intro r hr
        have := h.1 r.1 (List.mem_map_of_mem hr)
        simp only [bne_iff_ne, ne_eq]
        omega
      simp [hnone]
    · simp [hu, beq_eq_false_iff_ne.2 (Ne.symm hu)]

theorem generation?_of_mem (h : s.Holds slice xs) {w : Nat} {g : Generation α}
    (hg : (w, g) ∈ s.residents) : s.generation? w = some g := by
  have hasc := h.ascending
  rw [wraps] at hasc
  rw [generation?]
  generalize s.residents = rs at hg hasc
  induction rs with
  | nil => simp at hg
  | cons r rs ih =>
    obtain ⟨u, k⟩ := r
    simp only [List.map_cons, List.pairwise_cons] at hasc
    rcases List.mem_cons.1 hg with heq | hg
    · cases heq
      simp
    · have := hasc.1 w (List.mem_map_of_mem hg)
      rw [List.lookup_cons, beq_eq_false_iff_ne.2 (by omega)]
      exact ih hg hasc.2

private theorem slice_of_mem_bucket (h : s.Holds slice xs) {w : Nat} {g : Generation α}
    (hg : (w, g) ∈ s.residents) (b : Nat) : ∀ x ∈ g.bucket b, slice x = ⟨w, b⟩ := by
  intro x hx
  rw [h.bucket_eq (h.generation?_of_mem hg)] at hx
  simpa using (List.mem_filter.1 hx).2

/-- Everything at once comes out in the order of the slices, and in order of arrival in a slice. -/
theorem toList_eq (h : s.Holds slice xs) : s.toList = sortBySlice slice xs := by
  apply eq_sortBySlice
  · rw [toList, List.pairwise_flatMap]
    refine ⟨fun r hr => Generation.pairwise_toList (h.slice_of_mem_bucket hr), ?_⟩
    have hasc := List.pairwise_map.1 h.ascending
    refine hasc.imp_of_mem fun {r q} hr hq hlt x hx y hy => ?_
    rw [Generation.toList_eq_flatMap, List.mem_flatMap] at hx hy
    obtain ⟨b, -, hx⟩ := hx
    obtain ⟨c, -, hy⟩ := hy
    rw [h.slice_of_mem_bucket hr b x hx, h.slice_of_mem_bucket hq c y hy]
    exact Or.inl hlt
  · intro t
    rw [toList, List.filter_flatMap, ← h.bucket t, SliceStore.bucket, generation?,
      ← flatMap_ite_eq_lookup (·.bucket t.buffer) h.ascending]
    exact List.flatMap_congr fun r hr => Generation.filter_toList (h.slice_of_mem_bucket hr) t

theorem drainOlder (h : s.Holds slice xs) (w : Nat) :
    (s.drainOlder w).1 = sortBySlice slice (xs.filter fun x => (slice x).wrap < w) ∧
      (s.drainOlder w).2.Holds slice (xs.filter fun x => ¬ (slice x).wrap < w) ∧
      (s.drainOlder w).2.wraps = s.wraps.filter fun v => ¬ v < w := by
  have heq : s.drainOlder w =
      (({ s with residents := s.residents.filter fun r => r.1 < w } : SliceStore α).toList,
        { s with residents := s.residents.filter fun r => ¬ r.1 < w }) := by
    simp only [SliceStore.drainOlder, List.partition_eq_filter_filter, toList, Function.comp_def,
      decide_not]
  rw [heq]
  have hold := (h.filter fun v => decide (v < w)).toList_eq
  have hnew := h.filter fun v => decide ¬ v < w
  refine ⟨hold, hnew, ?_⟩
  simp [wraps, List.filter_map, Function.comp_def]

private theorem eq_of_lookup_eq {rs rs' : List (Nat × Generation α)}
    (hasc : (rs.map (·.1)).Pairwise (· < ·)) (hkeys : rs.map (·.1) = rs'.map (·.1))
    (hlookup : ∀ w, rs.lookup w = rs'.lookup w) : rs = rs' := by
  induction rs generalizing rs' with
  | nil => exact (List.map_eq_nil_iff.1 hkeys.symm).symm
  | cons p rs ih =>
    obtain ⟨u, g⟩ := p
    cases rs' with
    | nil => cases hkeys
    | cons q rs' =>
      obtain ⟨v, k⟩ := q
      simp only [List.map_cons, List.cons.injEq] at hkeys
      obtain ⟨rfl, hkeys⟩ := hkeys
      simp only [List.map_cons, List.pairwise_cons] at hasc
      have hhead : g = k := by simpa using hlookup u
      rw [hhead, ih hasc.2 hkeys fun w => ?_]
      by_cases hw : w = u
      · -- further down there is no second entry for the first key
        subst hw
        have hnot : ∀ x ∈ rs.map (·.1), x ≠ w := fun x hx => Nat.ne_of_gt (hasc.1 x hx)
        have hnone {qs : List (Nat × Generation α)} (hqs : ∀ x ∈ qs.map (·.1), x ≠ w) :
            qs.lookup w = none := by
          rw [List.lookup_eq_none_iff]
          intro x hx
          have := hqs x.1 (List.mem_map_of_mem hx)
          simpa using this.symm
        rw [hnone hnot, hnone (hkeys ▸ hnot)]
      · have := hlookup w
        rwa [lookup_cons, lookup_cons, if_neg hw, if_neg hw] at this

theorem eq_of_bucket_eq {s' : SliceStore α} {ys : List α} (h : s.Holds slice xs)
    (h' : s'.Holds slice ys) (hbuf : s.buffers = s'.buffers) (hws : s.wraps = s'.wraps)
    (hbucket : ∀ t, s.bucket t = s'.bucket t) : s = s' := by
  have hlookup (w : Nat) : s.generation? w = s'.generation? w := by
    cases hg : s.generation? w with
    | none =>
      have hnot : ¬ w ∈ s.wraps := by
        rw [← generation?_isSome_iff, hg]
        simp
      rw [hws, ← generation?_isSome_iff, Option.not_isSome_iff_eq_none] at hnot
      exact hnot.symm
    | some g =>
      obtain ⟨g', hg'⟩ := exists_generation? (hws ▸ mem_wraps_of_generation? hg)
      rw [hg']
      congr 1
      have hcount := (h.bufferCount w g hg).trans (hbuf.trans (h'.bufferCount w g' hg').symm)
      apply Generation.eq_of_bucket_eq hcount
      intro b
      have := hbucket ⟨w, b⟩
      rwa [SliceStore.bucket, SliceStore.bucket, hg, hg'] at this
  have hresidents := eq_of_lookup_eq h.ascending hws hlookup
  cases s
  cases s'
  simp only at hbuf hresidents
  rw [hbuf, hresidents]

end Holds

end SliceStore
end EventReadout
