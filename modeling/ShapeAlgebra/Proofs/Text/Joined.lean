import Mathlib.Data.List.Forall2
import ShapeAlgebra.Text

/-!
# Joined and repeated texts

What a text is made of can be told from it, and from what stands behind it, where no part can go on
as that begins.

Results:

* `Text.times_append_inj`: how often a text is repeated is told by what begins otherwise.
* `Text.append_mark_inj`: where the first mark stands tells what is before it.
* `Text.join_append_inj`: what is joined is told apart when its parts are.
-/

namespace ShapeAlgebra.Text

/-- A text several times. -/
def times (n : Nat) (w : Text) : Text := (List.replicate n w).flatten

theorem times_succ (n : Nat) (w : Text) : times (n + 1) w = w ++ times n w := rfl

theorem times_succ' (n : Nat) (w : Text) : times (n + 1) w = times n w ++ w := by
  rw [times, List.replicate_succ', List.flatten_append, List.flatten_singleton]
  rfl

/-- How often a text is repeated is told by what begins otherwise. -/
theorem times_append_inj {c : CodePoint} {w x y : Text} (hx : x.head? ≠ some c)
    (hy : y.head? ≠ some c) {m n : Nat} (h : times m (c :: w) ++ x = times n (c :: w) ++ y) :
    m = n ∧ x = y := by
  induction m generalizing n with
  | zero =>
    cases n with
    | zero => exact ⟨rfl, h⟩
    | succ n => exact absurd (congrArg List.head? h) hx
  | succ m ih =>
    cases n with
    | zero => exact absurd (congrArg List.head? h).symm hy
    | succ n =>
      rw [times_succ, times_succ, List.append_assoc, List.append_assoc] at h
      obtain ⟨rfl, hxy⟩ := ih (List.append_cancel_left h)
      exact ⟨rfl, hxy⟩

/-- Where the first mark stands tells what is before it. -/
theorem append_mark_inj {marks a b u v : Text} {p q : CodePoint} (ha : ∀ c ∈ a, c ∉ marks)
    (hb : ∀ c ∈ b, c ∉ marks) (hp : p ∈ marks) (hq : q ∈ marks)
    (h : a ++ p :: u = b ++ q :: v) : a = b ∧ p = q ∧ u = v := by
  induction a generalizing b with
  | nil =>
    cases b with
    | nil => exact ⟨rfl, List.cons.inj h⟩
    | cons c b => exact absurd hp ((List.cons.inj h).1 ▸ hb c (List.mem_cons_self ..))
  | cons c a ih =>
    cases b with
    | nil => exact absurd hq ((List.cons.inj h).1 ▸ ha c (List.mem_cons_self ..))
    | cons d b =>
      obtain ⟨rfl, hab⟩ := List.cons.inj h
      obtain ⟨rfl, hpq⟩ := ih (List.forall_mem_cons.1 ha).2 (List.forall_mem_cons.1 hb).2 hab
      exact ⟨rfl, hpq⟩

theorem join_singleton (sep a : Text) : join sep [a] = a := List.append_nil a

theorem join_cons_cons (sep a b : Text) (parts : List Text) :
    join sep (a :: b :: parts) = a ++ (sep ++ join sep (b :: parts)) := by
  simp [join]

theorem exists_join_cons (sep a : Text) (parts : List Text) :
    ∃ rest, join sep (a :: parts) = a ++ rest := by
  cases parts with
  | nil => exact ⟨[], (join_singleton sep a).trans (List.append_nil a).symm⟩
  | cons b parts => exact ⟨_, join_cons_cons sep a b parts⟩

section

variable {α : Type} {text : α → Text} {R : α → α → Prop} {P : Text → Prop} {c : CodePoint}
  {sep : Text}

/-- Parts that are told apart in front of a separator are told apart when they are joined. -/
theorem join_append_inj (hsep : ∀ u, P (c :: sep ++ u)) {xs ys : List α} (hxs : xs ≠ [])
    (hys : ys ≠ []) (hinj : ∀ x ∈ xs, ∀ y ∈ ys, ∀ u v, P u → P v →
      text x ++ u = text y ++ v → R x y ∧ u = v) {u v : Text} (hu : P u) (hv : P v)
    (huc : u.head? ≠ some c) (hvc : v.head? ≠ some c)
    (h : join (c :: sep) (xs.map text) ++ u = join (c :: sep) (ys.map text) ++ v) :
    List.Forall₂ R xs ys ∧ u = v := by
  induction xs generalizing ys with
  | nil => exact absurd rfl hxs
  | cons x xs ih =>
    cases ys with
    | nil => exact absurd rfl hys
    | cons y ys =>
      have hxy := hinj x (List.mem_cons_self ..) y (List.mem_cons_self ..)
      cases xs with
      | nil =>
        cases ys with
        | nil =>
          rw [List.map_singleton, List.map_singleton, join_singleton, join_singleton] at h
          obtain ⟨hr, huv⟩ := hxy u v hu hv h
          exact ⟨.cons hr .nil, huv⟩
        | cons y' ys =>
          rw [List.map_singleton, join_singleton, List.map_cons, List.map_cons, join_cons_cons,
            List.append_assoc, List.append_assoc] at h
          obtain ⟨-, rfl⟩ := hxy u _ hu (hsep _) h
          exact absurd rfl huc
      | cons x' xs =>
        cases ys with
        | nil =>
          rw [List.map_singleton, join_singleton, List.map_cons, List.map_cons, join_cons_cons,
            List.append_assoc, List.append_assoc] at h
          obtain ⟨-, rfl⟩ := hxy _ v (hsep _) hv h
          exact absurd rfl hvc
        | cons y' ys =>
          rw [List.map_cons, List.map_cons, join_cons_cons, List.map_cons, List.map_cons,
            join_cons_cons, List.append_assoc, List.append_assoc, List.append_assoc,
            List.append_assoc] at h
          obtain ⟨hr, hrest⟩ := hxy _ _ (hsep _) (hsep _) h
          obtain ⟨hrs, huv⟩ := ih (List.cons_ne_nil _ _) (List.cons_ne_nil _ _)
            (fun a ha b hb => hinj a (List.mem_cons_of_mem _ ha) b (List.mem_cons_of_mem _ hb))
            (List.append_cancel_left hrest)
          exact ⟨.cons hr hrs, huv⟩

end

end ShapeAlgebra.Text
