/-!
Parts in the order of their positions. Parts with the same position keep their order, so that the
order of some of the parts does not depend on the others.
-/
namespace ManifestUpkeep.Toml

section Sorted

variable {α : Type} {xs ys : List (Nat × α)}

/-- Parts in the order of their positions. -/
def byPosition (xs : List (Nat × α)) : List (Nat × α) := xs.mergeSort fun a b => a.1 ≤ b.1

theorem pairwise_byPosition (xs : List (Nat × α)) :
    (byPosition xs).Pairwise fun a b => a.1 ≤ b.1 := by
  have h := @List.pairwise_mergeSort _ (fun a b : Nat × α => decide (a.1 ≤ b.1)) (by simp; omega)
    (by simp; omega) xs
  exact h.imp fun hab => of_decide_eq_true hab

/-- Sorted parts split at every position. -/
theorem eq_filter_append_filter (h : xs.Pairwise fun a b => a.1 ≤ b.1) (p : Nat) :
    xs = xs.filter (·.1 < p) ++ xs.filter (p ≤ ·.1) := by
  induction xs with
  | nil => rfl
  | cons x xs ih =>
    rw [List.pairwise_cons] at h
    by_cases hx : x.1 < p
    · rw [List.filter_cons_of_pos (by simpa using hx), List.filter_cons_of_neg (by simpa using hx),
        List.cons_append, ← ih h.2]
    · have hnone : xs.filter (·.1 < p) = [] := by
        rw [List.filter_eq_nil_iff]
        intro y hy
        have hxy := h.1 y hy
        simp
        omega
      have hall : xs.filter (p ≤ ·.1) = xs := by
        rw [List.filter_eq_self]
        intro y hy
        have hxy := h.1 y hy
        simp
        omega
      rw [List.filter_cons_of_neg (by simpa using hx), hnone,
        List.filter_cons_of_pos (by simp; omega), hall, List.nil_append]

/-- A part in front goes behind those with lower positions. -/
theorem byPosition_cons (x : Nat × α) (xs : List (Nat × α)) :
    byPosition (x :: xs) =
      (byPosition xs).filter (·.1 < x.1) ++ x :: (byPosition xs).filter (x.1 ≤ ·.1) := by
  obtain ⟨l, r, hx, hxs, hlow⟩ := @List.mergeSort_cons _
    (fun a b : Nat × α => decide (a.1 ≤ b.1)) (by simp; omega) (by simp; omega) x xs
  have hsorted := pairwise_byPosition (x :: xs)
  unfold byPosition at hsorted ⊢
  rw [hx] at hsorted ⊢
  rw [hxs]
  have hhigh : ∀ y ∈ r, x.1 ≤ y.1 := (List.pairwise_cons.1 (List.pairwise_append.1 hsorted).2.1).1
  have hlow : ∀ y ∈ l, y.1 < x.1 := fun y hy => by simpa using hlow y hy
  have hl : l.filter (·.1 < x.1) = l := List.filter_eq_self.2 fun y hy => by simpa using hlow y hy
  have hl' : l.filter (x.1 ≤ ·.1) = [] := List.filter_eq_nil_iff.2 fun y hy => by simpa using hlow y hy
  have hr : r.filter (x.1 ≤ ·.1) = r := List.filter_eq_self.2 fun y hy => by simpa using hhigh y hy
  have hr' : r.filter (·.1 < x.1) = [] := List.filter_eq_nil_iff.2 fun y hy => by simpa using hhigh y hy
  rw [List.filter_append, List.filter_append, hl, hl', hr, hr', List.append_nil, List.nil_append]

/-- Some of the parts are in the same order as among all of them. -/
theorem filter_byPosition (p : Nat × α → Bool) (xs : List (Nat × α)) :
    (byPosition xs).filter p = byPosition (xs.filter p) := by
  induction xs with
  | nil => simp [byPosition]
  | cons x xs ih =>
    have hcomm (q : Nat × α → Bool) :
        ((byPosition xs).filter q).filter p = (byPosition (xs.filter p)).filter q := by
      rw [List.filter_filter, ← ih, List.filter_filter]
      simp only [Bool.and_comm]
    rw [byPosition_cons, List.filter_append, List.filter_cons, hcomm, hcomm, List.filter_cons]
    split
    · rw [byPosition_cons]
    · exact (eq_filter_append_filter (pairwise_byPosition _) x.1).symm

end Sorted

section InOrder

variable {α β : Type} {xs ys : List (Nat × List α)}

/-- The contents of parts in the order of their positions. -/
def inOrder (xs : List (Nat × List α)) : List α := (byPosition xs).flatMap Prod.snd

theorem mem_inOrder {a : α} : a ∈ inOrder xs ↔ ∃ x ∈ xs, a ∈ x.2 := by
  rw [inOrder, List.mem_flatMap]
  exact exists_congr fun x => and_congr_left' (List.mergeSort_perm ..).mem_iff

/-- The order does not depend on the contents. -/
theorem flatMap_inOrder (f : α → List β) (xs : List (Nat × List α)) :
    (inOrder xs).flatMap f = inOrder (xs.map fun x => (x.1, x.2.flatMap f)) := by
  have hmap : (byPosition xs).map (fun x => (x.1, x.2.flatMap f)) =
      byPosition (xs.map fun x => (x.1, x.2.flatMap f)) :=
    List.map_mergeSort fun _ _ _ _ => rfl
  rw [inOrder, inOrder, ← hmap, List.flatMap_map, List.flatMap_assoc]

theorem map_inOrder (f : α → β) (xs : List (Nat × List α)) :
    (inOrder xs).map f = inOrder (xs.map fun x => (x.1, x.2.map f)) := by
  rw [List.map_eq_flatMap, flatMap_inOrder]
  simp only [List.map_eq_flatMap]

/-- Parts without contents may be left out. -/
theorem inOrder_filter (p : Nat × List α → Bool) (h : ∀ x ∈ xs, p x = false → x.2 = []) :
    inOrder (xs.filter p) = inOrder xs := by
  have hsub : ∀ x ∈ byPosition xs, p x = false → x.2 = [] := fun x hx =>
    h x ((List.mergeSort_perm ..).mem_iff.1 hx)
  rw [inOrder, inOrder, ← filter_byPosition]
  generalize byPosition xs = l at hsub
  induction l with
  | nil => rfl
  | cons x l ih =>
    have ih := ih fun y hy => hsub y (List.mem_cons_of_mem _ hy)
    cases hx : p x with
    | true => rw [List.filter_cons_of_pos hx, List.flatMap_cons, List.flatMap_cons, ih]
    | false =>
      rw [List.filter_cons_of_neg (by simp [hx]), List.flatMap_cons,
        hsub x (List.mem_cons_self ..) hx, List.nil_append, ih]

/-- Parts split at every position. -/
theorem inOrder_split (p : Nat) (xs : List (Nat × List α)) :
    inOrder xs = inOrder (xs.filter (·.1 < p)) ++ inOrder (xs.filter (p ≤ ·.1)) := by
  rw [inOrder, eq_filter_append_filter (pairwise_byPosition xs) p, List.flatMap_append,
    filter_byPosition, filter_byPosition]
  rfl

/-- A part in front goes behind those with lower positions. -/
theorem inOrder_cons (x : Nat × List α) (xs : List (Nat × List α)) :
    inOrder (x :: xs) = inOrder (xs.filter (·.1 < x.1)) ++ (x.2 ++ inOrder (xs.filter (x.1 ≤ ·.1))) := by
  rw [inOrder, byPosition_cons, List.flatMap_append, List.flatMap_cons, filter_byPosition,
    filter_byPosition]
  rfl

/-- Parts with low positions stand before parts with high positions. -/
theorem inOrder_append (p : Nat) (hxs : ∀ x ∈ xs, x.1 < p) (hys : ∀ y ∈ ys, p ≤ y.1) :
    inOrder (xs ++ ys) = inOrder xs ++ inOrder ys := by
  have hx : xs.filter (·.1 < p) = xs := List.filter_eq_self.2 fun x hx => by simpa using hxs x hx
  have hx' : xs.filter (p ≤ ·.1) = [] := List.filter_eq_nil_iff.2 fun x hx => by simpa using hxs x hx
  have hy : ys.filter (p ≤ ·.1) = ys := List.filter_eq_self.2 fun y hy => by simpa using hys y hy
  have hy' : ys.filter (·.1 < p) = [] := List.filter_eq_nil_iff.2 fun y hy => by simpa using hys y hy
  rw [inOrder_split p, List.filter_append, List.filter_append, hx, hx', hy, hy', List.append_nil,
    List.nil_append]

/-- A part with the lowest position comes first. -/
theorem inOrder_cons_of_le {x : Nat × List α} (h : ∀ y ∈ xs, y.2 ≠ [] → x.1 ≤ y.1) :
    inOrder (x :: xs) = x.2 ++ inOrder xs := by
  have hempty : ∀ y ∈ xs, ¬x.1 ≤ y.1 → y.2 = [] := by
    intro y hy hlt
    by_cases hne : y.2 = []
    · exact hne
    · exact absurd (h y hy hne) hlt
  have hlow : inOrder (xs.filter (·.1 < x.1)) = [] := by
    rw [List.eq_nil_iff_forall_not_mem]
    intro a ha
    obtain ⟨y, hy, hay⟩ := mem_inOrder.1 ha
    rw [List.mem_filter, decide_eq_true_eq] at hy
    rw [hempty y hy.1 (by omega)] at hay
    cases hay
  rw [inOrder_cons, hlow, List.nil_append, inOrder_filter]
  intro y hy hlt
  exact hempty y hy (by simpa using hlt)

end InOrder

end ManifestUpkeep.Toml
