import ManifestUpkeep.Random

/-!
Random numbers. A number is drawn from the words that follow until one of them is taken, and lies
between its bounds. Behind a list of words there are zeros, which are always taken, so that the tries
are never used up.
-/
namespace ManifestUpkeep.Random

/-- A number below a range is drawn: words are refused until the low half of the product of one with
the range falls into the zone. Nothing bounds how many these are. -/
inductive Draws (range : Nat) : Source → Nat → Source → Prop where
  | taken {s : Source} : s.next.1.toNat * range % wordCount ≤ zoneOf range →
      Draws range s (s.next.1.toNat * range / wordCount) s.next.2
  | refused {s last : Source} {n : Nat} : zoneOf range < s.next.1.toNat * range % wordCount →
      Draws range s.next.2 n last → Draws range s n last

/-- A number between two bounds, both included, is drawn. -/
def DrawsBetween (low high : Nat) (s : Source) (n : Nat) (last : Source) : Prop :=
  ∃ k, Draws (high - low + 1) s k last ∧ n = low + k

/-- Numbers between two bounds are drawn one after the other. -/
inductive DrawsAll (low high : Nat) : Source → List Nat → Source → Prop where
  | nil (s : Source) : DrawsAll low high s [] s
  | cons {s mid last : Source} {n : Nat} {ns : List Nat} : DrawsBetween low high s n mid →
      DrawsAll low high mid ns last → DrawsAll low high s (n :: ns) last

variable {range low high n : Nat} {s last : Source}

theorem Draws.lt (h : Draws range s n last) (hrange : 0 < range) : n < range := by
  induction h with
  | @taken s _ =>
    apply Nat.div_lt_of_lt_mul
    exact Nat.mul_lt_mul_of_pos_right (UInt64.toNat_lt _) hrange
  | refused _ _ ih => exact ih

theorem DrawsBetween.bounds (h : DrawsBetween low high s n last) (hle : low ≤ high) :
    low ≤ n ∧ n ≤ high := by
  obtain ⟨k, hk, rfl⟩ := h
  have hlt := hk.lt (Nat.succ_pos _)
  omega

theorem DrawsAll.bounds {ns : List Nat} (h : DrawsAll low high s ns last) (hle : low ≤ high) :
    ∀ n ∈ ns, low ≤ n ∧ n ≤ high := by
  induction h with
  | nil => simp
  | cons hn _ ih => simpa using ⟨hn.bounds hle, ih⟩

theorem drawBelow_succ (range zone tries : Nat) (s : Source) : drawBelow range zone (tries + 1) s =
    if s.next.1.toNat * range % wordCount ≤ zone then
      (s.next.1.toNat * range / wordCount, s.next.2)
    else drawBelow range zone tries s.next.2 := rfl

/-- A zero is never refused, so that one try more than there are words in the list is enough. -/
theorem draws_drawBelow (range : Nat) {tries : Nat} {list : List UInt64} (h : list.length < tries) :
    ∃ rest, (drawBelow range (zoneOf range) tries (.words list)).2 = .words rest ∧
      Draws range (.words list) (drawBelow range (zoneOf range) tries (.words list)).1 (.words rest) := by
  induction list generalizing tries with
  | nil =>
    obtain ⟨tries, rfl⟩ := Nat.exists_eq_succ_of_ne_zero (Nat.ne_of_gt h)
    have htaken : (Source.words []).next.1.toNat * range % wordCount ≤ zoneOf range := by
      simp [Source.next]
    rw [Nat.succ_eq_add_one, drawBelow_succ, if_pos htaken]
    exact ⟨[], rfl, .taken htaken⟩
  | cons w list ih =>
    obtain ⟨tries, rfl⟩ := Nat.exists_eq_succ_of_ne_zero (Nat.ne_of_gt (Nat.zero_lt_of_lt h))
    rw [Nat.succ_eq_add_one, drawBelow_succ]
    split
    · next htaken => exact ⟨list, rfl, .taken htaken⟩
    · next hrefused =>
      obtain ⟨rest, hrest, hdraws⟩ := ih (Nat.lt_of_succ_lt_succ h)
      exact ⟨rest, hrest, .refused (Nat.lt_of_not_le hrefused) hdraws⟩

theorem draws_uniform (low high : Nat) (list : List UInt64) :
    ∃ rest, (uniform low high (.words list)).2 = .words rest ∧
      DrawsBetween low high (.words list) (uniform low high (.words list)).1 (.words rest) := by
  obtain ⟨rest, hrest, hdraws⟩ := draws_drawBelow (high - low + 1) (Nat.lt_succ_self list.length)
  exact ⟨rest, hrest, _, hdraws, rfl⟩

end ManifestUpkeep.Random
