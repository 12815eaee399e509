import Mathlib.Algebra.Order.Field.Basic
import Mathlib.Tactic.Linarith
import Mathlib.Tactic.Ring

/-!
# Token buckets

A bucket holds a level of credit that flows in at a rate, up to a burst, and is drawn on. What a
bucket does is described here by its draws: the time of each, what was spent, and the level it
left (`Fed`). A draw may also lower the level without spending, so a bucket that serves others
beside what is counted is covered, and the level may fall below zero in between, as long as
whatever is spent leaves it at zero or above.

The point of a bucket is `Fed.spentIn_le`: in any interval no more is spent than the burst and
what flows in meanwhile.
-/

namespace Bucket

variable {K : Type*} [Field K] [LinearOrder K]

/-- One draw on the bucket, and the level after it. -/
structure Draw (K : Type*) where
  time : K
  spent : K
  level : K

/-- The draws of a bucket that had `level` at time `last`. -/
def Fed (rate burst : K) : K → K → List (Draw K) → Prop
  | _, _, [] => True
  | level, last, d :: ds =>
    (last ≤ d.time ∧ 0 ≤ d.spent ∧ (d.spent = 0 ∨ 0 ≤ d.level) ∧
      d.spent + d.level ≤ level + rate * (d.time - last) ∧ d.spent + d.level ≤ burst) ∧
    Fed rate burst d.level d.time ds

/-- What is spent from `a` to `b`. -/
def spentIn (a b : K) (ds : List (Draw K)) : K :=
  ((ds.filter fun d => a ≤ d.time ∧ d.time ≤ b).map Draw.spent).sum

@[simp] theorem spentIn_nil (a b : K) : spentIn a b [] = 0 := rfl

theorem spentIn_cons_in {a b : K} {d : Draw K} (ds : List (Draw K)) (ha : a ≤ d.time)
    (hb : d.time ≤ b) : spentIn a b (d :: ds) = d.spent + spentIn a b ds := by
  rw [spentIn, List.filter_cons_of_pos (by simpa using ⟨ha, hb⟩), List.map_cons, List.sum_cons]
  rfl

theorem spentIn_cons_out {a b : K} {d : Draw K} (ds : List (Draw K))
    (h : ¬ (a ≤ d.time ∧ d.time ≤ b)) : spentIn a b (d :: ds) = spentIn a b ds := by
  rw [spentIn, List.filter_cons_of_neg (by simpa using h)]
  rfl

variable {rate burst level last : K} {ds : List (Draw K)}

/-- The draws come in order. -/
theorem Fed.last_le (h : Fed rate burst level last ds) : ∀ d ∈ ds, last ≤ d.time := by
  induction ds generalizing level last with
  | nil => exact fun d hd => nomatch hd
  | cons e ds ih =>
    intro d hd
    rcases List.mem_cons.mp hd with rfl | hd
    · exact h.1.1
    · exact h.1.1.trans (ih h.2 d hd)

/-- Nothing is spent in an interval that is over. -/
theorem Fed.spentIn_past {a b : K} (h : Fed rate burst level last ds) (hb : b < last) :
    spentIn a b ds = 0 := by
  rw [spentIn, List.filter_eq_nil_iff.mpr]
  · rfl
  · intro d hd
    have := h.last_le d hd
    simp only [decide_eq_true_eq, not_and, not_le]
    exact fun _ => hb.trans_le this

variable [IsStrictOrderedRing K]

/-- What is spent from now on comes out of the level and what flows in. -/
theorem Fed.spentIn_le_level {a b : K} (hrate : 0 ≤ rate) (h : Fed rate burst level last ds)
    (ha : a ≤ last) (hb : last ≤ b) :
    spentIn a b ds = 0 ∨ spentIn a b ds ≤ level + rate * (b - last) := by
  induction ds generalizing level last with
  | nil => exact .inl rfl
  | cons d ds ih =>
    obtain ⟨⟨htime, hspent, hleft, hlevel, -⟩, hrest⟩ := h
    rcases lt_or_ge b d.time with hpast | hin
    · -- the interval ends before this draw
      left
      rw [spentIn_cons_out ds (fun hd => absurd hd.2 (not_le.mpr hpast)),
        hrest.spentIn_past hpast]
    · rw [spentIn_cons_in ds (ha.trans htime) hin]
      have hflow : 0 ≤ rate * (b - d.time) := mul_nonneg hrate (sub_nonneg.mpr hin)
      have hsplit : rate * (b - last) = rate * (d.time - last) + rate * (b - d.time) := by ring
      rcases ih hrest (ha.trans htime) hin with hzero | hle
      · rw [hzero, add_zero]
        rcases hleft with hnone | hleft
        · exact .inl hnone
        · right
          linarith
      · right
        linarith

/-- **The bound.** In an interval no more is spent than the burst and what flows in. -/
theorem Fed.spentIn_le {a b : K} (hrate : 0 ≤ rate) (hburst : 0 ≤ burst)
    (h : Fed rate burst level last ds) (hab : a ≤ b) :
    spentIn a b ds ≤ burst + rate * (b - a) := by
  have hbound : 0 ≤ burst + rate * (b - a) :=
    add_nonneg hburst (mul_nonneg hrate (sub_nonneg.mpr hab))
  induction ds generalizing level last with
  | nil => exact hbound
  | cons d ds ih =>
    obtain ⟨⟨-, hspent, hleft, -, hcap⟩, hrest⟩ := h
    by_cases hin : a ≤ d.time ∧ d.time ≤ b
    · -- the first draw of the interval finds at most the burst
      rw [spentIn_cons_in ds hin.1 hin.2]
      have hflow : rate * (b - d.time) ≤ rate * (b - a) :=
        mul_le_mul_of_nonneg_left (by linarith [hin.1]) hrate
      rcases hrest.spentIn_le_level hrate hin.1 hin.2 with hzero | hle
      · rw [hzero, add_zero]
        rcases hleft with hnone | hleft
        · rw [hnone]
          exact hbound
        · linarith [mul_nonneg hrate (sub_nonneg.mpr hab)]
      · linarith
    · rw [spentIn_cons_out ds hin]
      exact ih hrest

end Bucket
