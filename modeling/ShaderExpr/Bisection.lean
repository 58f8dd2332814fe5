/-!
# Bisection

`firstFailure p n` finds the end of the initial segment of `0, …, n - 1` on which `p` holds, by
halving.  It is right when `p` holds on an initial segment: `lt_firstFailure_iff`.
-/

namespace ShaderExpr

/-- The end of the initial segment on which `p` holds, sought among the `count` indices from `low`;
`fuel` is at least `count`. -/
def bisect (p : Nat → Bool) : Nat → Nat → Nat → Nat
  | 0, low, _ => low
  | fuel + 1, low, count =>
    if count = 0 then low
    else if p (low + count / 2) then bisect p fuel (low + count / 2 + 1) (count - count / 2 - 1)
    else bisect p fuel low (count / 2)

/-- The least index below `n` at which `p` fails, and `n` if there is none. -/
def firstFailure (p : Nat → Bool) (n : Nat) : Nat :=
  bisect p n 0 n

private theorem bisect_split (p : Nat → Bool) (n : Nat)
    (segment : ∀ i j, i ≤ j → j < n → p j = true → p i = true)
    (fuel low count : Nat) (hfuel : count ≤ fuel) (hn : low + count ≤ n) (hlow : ∀ i < low, p i = true)
    (hhigh : ∀ i, low + count ≤ i → i < n → p i = false) :
    bisect p fuel low count ≤ n ∧ (∀ i < bisect p fuel low count, p i = true) ∧
      ∀ i, bisect p fuel low count ≤ i → i < n → p i = false := by
  induction fuel generalizing low count with
  | zero =>
    have hcount : count = 0 := by omega
    subst hcount
    exact ⟨hn, hlow, hhigh⟩
  | succ fuel ih =>
    unfold bisect
    split
    · rename_i hcount
      subst hcount
      exact ⟨hn, hlow, hhigh⟩
    · split
      · -- `p` holds in the middle, and so before it
        rename_i hcount hp
        refine ih _ _ (by omega) (by omega) (fun i hi => ?_) (fun i hi => hhigh i (by omega))
        exact segment i _ (by omega) (by omega) hp
      · -- `p` fails in the middle, and so after it
        rename_i hcount hp
        refine ih _ _ (by omega) (by omega) hlow (fun i hi hin => ?_)
        cases hpi : p i with
        | false => rfl
        | true => exact absurd (segment _ i hi hin hpi) hp

theorem firstFailure_le {p : Nat → Bool} {n : Nat}
    (segment : ∀ i j, i ≤ j → j < n → p j = true → p i = true) :
    firstFailure p n ≤ n :=
  (bisect_split p n segment n 0 n (Nat.le_refl n) (by omega) (by omega) (by omega)).1

/-- If `p` holds on an initial segment, it holds exactly before the end that bisection finds. -/
theorem lt_firstFailure_iff {p : Nat → Bool} {n : Nat}
    (segment : ∀ i j, i ≤ j → j < n → p j = true → p i = true) {i : Nat} (hi : i < n) :
    i < firstFailure p n ↔ p i = true := by
  have h := bisect_split p n segment n 0 n (Nat.le_refl n) (by omega) (by omega) (by omega)
  refine ⟨h.2.1 i, fun hp => ?_⟩
  rcases Nat.lt_or_ge i (firstFailure p n) with hlt | hge
  · exact hlt
  · rw [h.2.2 i hge hi] at hp
    exact absurd hp (by decide)

end ShaderExpr
