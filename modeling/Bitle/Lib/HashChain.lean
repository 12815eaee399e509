import Mathlib.Data.List.Basic
import Mathlib.Logic.Function.Basic

/-!
# Hash chains

A digest `h` absorbs a piece of data `d` by becoming the hash of its own encoding followed by `d`.
Over a collision-free hash the final digest would fix every piece that was absorbed. A real hash has
collisions, so the statement is about the texts the two chains hashed: two chains with one final
digest absorbed the same pieces, or two different texts among theirs have one digest.
-/

namespace HashChain

variable {α D : Type*}

/-- Two different texts, one of each list, with one digest. -/
def Collision (hash : List α → D) (xs ys : List (List α)) : Prop :=
  ∃ x ∈ xs, ∃ y ∈ ys, x ≠ y ∧ hash x = hash y

/-- The digest after one more piece. -/
def absorb (hash : List α → D) (enc : D → List α) (h : D) (d : List α) : D := hash (enc h ++ d)

/-- The digest after a list of pieces. -/
def absorbAll (hash : List α → D) (enc : D → List α) (h : D) (ds : List (List α)) : D :=
  ds.foldl (absorb hash enc) h

/-- The texts hashed on the way. -/
def texts (hash : List α → D) (enc : D → List α) : D → List (List α) → List (List α)
  | _, [] => []
  | h, d :: ds => (enc h ++ d) :: texts hash enc (absorb hash enc h d) ds

variable {hash : List α → D} {enc : D → List α} {n : Nat}

theorem Collision.mono {xs xs' ys ys' : List (List α)} (h : Collision hash xs ys)
    (hx : ∀ x ∈ xs, x ∈ xs') (hy : ∀ y ∈ ys, y ∈ ys') : Collision hash xs' ys' := by
  obtain ⟨x, hxm, y, hym, hne, heq⟩ := h
  exact ⟨x, hx x hxm, y, hy y hym, hne, heq⟩

@[simp] theorem absorbAll_nil (h : D) : absorbAll hash enc h [] = h := rfl

@[simp] theorem absorbAll_cons (h : D) (d : List α) (ds : List (List α)) :
    absorbAll hash enc h (d :: ds) = absorbAll hash enc (absorb hash enc h d) ds := rfl

theorem absorbAll_append (h : D) (ds ds' : List (List α)) :
    absorbAll hash enc h (ds ++ ds') = absorbAll hash enc (absorbAll hash enc h ds) ds' :=
  List.foldl_append

/-- One piece: equal digests come from equal texts, and these split at the encoded digest. -/
theorem absorb_eq (hlen : ∀ h, (enc h).length = n) (hinj : Function.Injective enc) {h h' : D}
    {d d' : List α} (heq : absorb hash enc h d = absorb hash enc h' d') :
    (h = h' ∧ d = d') ∨ Collision hash [enc h ++ d] [enc h' ++ d'] := by
  by_cases hin : enc h ++ d = enc h' ++ d'
  · left
    obtain ⟨henc, hd⟩ := List.append_inj hin ((hlen h).trans (hlen h').symm)
    exact ⟨hinj henc, hd⟩
  · exact .inr ⟨_, List.mem_singleton_self _, _, List.mem_singleton_self _, hin, heq⟩

/-- **Binding**: as many pieces and the same digest, so the same pieces, or a collision. -/
theorem absorbAll_eq (hlen : ∀ h, (enc h).length = n) (hinj : Function.Injective enc) :
    ∀ {ds ds' : List (List α)} {h h' : D}, ds.length = ds'.length →
      absorbAll hash enc h ds = absorbAll hash enc h' ds' →
        (h = h' ∧ ds = ds') ∨ Collision hash (texts hash enc h ds) (texts hash enc h' ds')
  | [], [], _, _, _, heq => .inl ⟨heq, rfl⟩
  | d :: ds, d' :: ds', h, h', hds, heq => by
    rcases absorbAll_eq hlen hinj (Nat.succ.inj hds) heq with ⟨hmid, htail⟩ | hcol
    · rcases absorb_eq hlen hinj hmid with ⟨hh, hd⟩ | hcol
      · exact .inl ⟨hh, by rw [hd, htail]⟩
      · -- the two texts of the first step
        refine .inr (hcol.mono ?_ ?_)
        · intro x hx
          rw [List.mem_singleton.mp hx]
          exact List.mem_cons_self
        · intro y hy
          rw [List.mem_singleton.mp hy]
          exact List.mem_cons_self
    · exact .inr (hcol.mono (fun _ => List.mem_cons_of_mem _) fun _ => List.mem_cons_of_mem _)

end HashChain
