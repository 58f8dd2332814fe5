import ShaderExpr.Proofs.Formulas
import ShaderExpr.Proofs.Number.Arithmetic

/-!
# The range of the normalized z-index

The normalized z-index is the quotient of the z-index and its successor (`Session.evaluate_normZ`).  Both operations
are rounded:

* adding one to a number below `2 ^ 24` gives a greater number, and from `2 ^ 25` on it gives the same number, since the
  last place of a number grows with it (`Datum.add_one_bounds`);
* a number over a greater one is below one, and so far below it that it is not rounded to one
  (`Datum.normalized_bounds`).

So the normalized index of a finite index that is not negative is in the unit interval (`Session.normZ_evaluate_range`),
whose end is reached by large indices (`Session.normZ_evaluate_eq_one`).
-/

namespace ShaderExpr

variable {n : Nat}

open FloatFormat (binary32 regular_binary32)

namespace Datum

private theorem value?_two_pow {x : Float32} {n : Nat} {e : Int} (hx : ofFloat32 x = finite false (2 ^ n) e) :
    (ofFloat32 x).value? = some (2 ^ (e + n)) := by
  rw [hx]
  exact congrArg some (magnitude_two_pow n e)

private theorem value?_float_zero : (ofFloat32 0.0).value? = some 0 := by
  have hzero : ofFloat32 0.0 = finite false 0 (-149) := by decide +kernel
  rw [hzero]
  exact congrArg some (zero_magnitude _)

private theorem value?_float_one : (ofFloat32 1.0).value? = some 1 :=
  value?_two_pow (n := 23) (e := -23) (by decide +kernel)

private theorem value?_two_pow_24 : (ofFloat32 16777216.0).value? = some (2 ^ 24) :=
  value?_two_pow (n := 23) (e := 1) (by decide +kernel)

private theorem value?_two_pow_25 : (ofFloat32 33554432.0).value? = some (2 ^ 25) :=
  value?_two_pow (n := 23) (e := 2) (by decide +kernel)

end Datum

section Successor

variable {s r : Nat} {e k : Int}

private theorem onGrid_one : binary32.OnGrid (2 ^ 23) (-23) :=
  .first regular_binary32 (by decide)

private theorem magnitude_one : magnitude (2 ^ 23) (-23) = 1 :=
  magnitude_two_pow 23 (-23)

private theorem magnitude_succ (s : Nat) (e : Int) : magnitude (s + 1) e = magnitude s e + 2 ^ e := by
  unfold magnitude
  push_cast
  ring

/-- One is added within the range of the format. -/
private theorem magnitude_add_one_lt_overflow (h : binary32.Canonical s e) :
    magnitude s e + 1 < binary32.overflow := by
  have hs : (s : ℚ) ≤ 2 ^ 24 - 1 := by
    have hcast : ((s + 1 : Nat) : ℚ) ≤ (2 ^ 24 : Nat) := Nat.cast_le.2 h.lt
    push_cast at hcast
    linarith
  have he : e ≤ 104 := by
    have htop := h.exponent_lt
    rw [Datum.leastExponent_binary32, show binary32.topExponent = 255 from rfl] at htop
    omega
  have hlast : (2 : ℚ) ^ e ≤ 2 ^ 104 := by
    exact_mod_cast zpow_le_zpow_right₀ (by norm_num : (1 : ℚ) ≤ 2) he
  have hle : magnitude s e ≤ (2 ^ 24 - 1) * 2 ^ 104 :=
    mul_le_mul hs hlast (zpow_pos (by norm_num) e).le (by norm_num)
  rw [Datum.overflow_binary32]
  linarith

section Nearest

variable (h : binary32.OnGrid s e) (hnext : binary32.Nearest (magnitude s e + 1) r k)

include h hnext

private theorem le_of_nearest_add_one : magnitude s e ≤ magnitude r k :=
  h.nearest.mono regular_binary32 hnext (by linarith)

omit h in
private theorem one_le_of_nearest_add_one : 1 ≤ magnitude r k := by
  have hone := onGrid_one.nearest.mono regular_binary32 hnext (by linarith [magnitude_nonneg s e, magnitude_one])
  rwa [magnitude_one] at hone

/-- Below `2 ^ 24` the last place is one at most, so that adding one is not lost. -/
private theorem lt_of_nearest_add_one (hlt : magnitude s e < 2 ^ 24) : magnitude s e < magnitude r k := by
  have he : e ≤ 0 := by
    by_contra hpos
    have hfull : 2 ^ 23 ≤ s := h.normal.resolve_right (by rw [Datum.leastExponent_binary32]; omega)
    have hplace : (2 : ℚ) ^ (1 : Int) ≤ 2 ^ e := zpow_le_zpow_right₀ (by norm_num) (by omega)
    have hge : ((2 ^ 23 : Nat) : ℚ) * 2 ^ (1 : Int) ≤ magnitude s e :=
      mul_le_mul (Nat.cast_le.2 hfull) hplace (by norm_num) (Nat.cast_nonneg s)
    norm_num at hge
    linarith
  obtain ⟨s', e', hgrid, hsucc⟩ := h.exists_succ regular_binary32
  have hstep : magnitude (s + 1) e ≤ magnitude s e + 1 := by
    rw [magnitude_succ]
    exact add_le_add_right (zpow_le_one_of_nonpos₀ (by norm_num) he) _
  have hle := hgrid.nearest.mono regular_binary32 hnext (hsucc.trans_le hstep)
  rw [hsucc] at hle
  exact (magnitude_lt_magnitude.2 (Nat.lt_succ_self s)).trans_le hle

/-- From `2 ^ 25` on the last place is four at least, so that adding one is lost. -/
private theorem le_magnitude_of_nearest_add_one (hge : 2 ^ 25 ≤ magnitude s e) : magnitude r k ≤ magnitude s e := by
  have he : 2 ≤ e := by
    by_contra hlt
    have hplace : (2 : ℚ) ^ e ≤ 2 ^ (1 : Int) := zpow_le_zpow_right₀ (by norm_num) (by omega)
    have hlt : magnitude s e < ((2 ^ 24 : Nat) : ℚ) * 2 ^ (1 : Int) :=
      mul_lt_mul (Nat.cast_lt.2 h.lt) hplace (zpow_pos (by norm_num) e) (Nat.cast_nonneg _)
    norm_num at hlt
    linarith
  by_contra hgt
  have hplace : (2 : ℚ) ^ (2 : Int) ≤ 2 ^ e := zpow_le_zpow_right₀ (by norm_num) he
  have hsucc := h.succ_le regular_binary32 hnext.onGrid (not_le.1 hgt)
  rw [magnitude_succ] at hsucc
  norm_num at hplace
  -- the number itself is nearer than the next one
  have hnear := hnext.le h
  rw [add_sub_cancel_left, abs_one, abs_of_neg (by linarith)] at hnear
  linarith

end Nearest

private theorem magnitude_belowOne : magnitude (2 ^ 24 - 1) (-24) = (2 ^ 24 - 1) / 2 ^ 24 := by
  norm_num [magnitude]

/-- The quotient of two numbers of the format stays away from one, as far as its last number below one. -/
private theorem div_le_belowOne (h : binary32.OnGrid s e) (h' : binary32.OnGrid r k)
    (hlt : magnitude s e < magnitude r k) : magnitude s e / magnitude r k ≤ magnitude (2 ^ 24 - 1) (-24) := by
  have hs : (s : ℚ) + 1 ≤ 2 ^ 24 := by
    exact_mod_cast Nat.succ_le_of_lt h.lt
  have hplace : (2 : ℚ) ^ e ≠ 0 := (zpow_pos (by norm_num) e).ne'
  have hpos : 0 < magnitude (s + 1) e := (magnitude_nonneg s e).trans_lt (magnitude_lt_magnitude.2 (Nat.lt_succ_self s))
  calc
    magnitude s e / magnitude r k ≤ magnitude s e / magnitude (s + 1) e :=
      div_le_div_of_nonneg_left (magnitude_nonneg s e) hpos (h.succ_le regular_binary32 h' hlt)
    _ = s / (s + 1) := by
      unfold magnitude
      rw [mul_div_mul_right _ _ hplace, Nat.cast_succ]
    _ ≤ (2 ^ 24 - 1) / 2 ^ 24 := by
      rw [div_le_div_iff₀ (by positivity) (by norm_num)]
      linarith
    _ = magnitude (2 ^ 24 - 1) (-24) := magnitude_belowOne.symm

end Successor

namespace Datum

variable {z : Float32}

private theorem exists_successor (hfinite : z.isFinite = true) (hnonneg : 0.0 ≤ z) :
    ∃ s e r k, binary32.OnGrid s e ∧ binary32.Nearest (magnitude s e + 1) r k ∧
      (ofFloat32 z).value? = some (magnitude s e) ∧ (ofFloat32 (z + 1.0)).value? = some (magnitude r k) := by
  rw [isFinite_eq] at hfinite
  obtain ⟨p, hp⟩ := Option.isSome_iff_exists.1 ((isSome_value? _).trans hfinite)
  have hp0 := (le_iff value?_float_zero hp).1 hnonneg
  obtain ⟨negative, s, e, hz⟩ : ∃ negative s e, ofFloat32 z = finite negative s e := by
    cases hz : ofFloat32 z with
    | nan | infinite => rw [hz] at hp; exact nomatch hp
    | finite negative s e => exact ⟨negative, s, e, rfl⟩
  have hcanonical := canonical_ofFloat32 hz
  obtain rfl : p = magnitude s e := (abs_of_nonneg hp0).symm.trans (abs_value (hz ▸ hp))
  obtain ⟨d, hrounds, hsum⟩ := ofFloat32_add hp value?_float_one
  obtain ⟨r, k, hnearest, hvalue⟩ := hrounds.exists_nearest regular_binary32 (by linarith)
    (magnitude_add_one_lt_overflow hcanonical)
  exact ⟨s, e, r, k, hcanonical.onGrid, hnearest, hp, hsum ▸ hvalue⟩

/-- The quotient of a number by its successor is in the unit interval, and it is one if the number is its own
successor. -/
theorem normalized_bounds (hfinite : z.isFinite = true) (hnonneg : 0.0 ≤ z) :
    0.0 ≤ z / (z + 1.0) ∧ z / (z + 1.0) ≤ 1.0 ∧ (z / (z + 1.0) < 1.0 ↔ z < z + 1.0) := by
  obtain ⟨s, e, r, k, hgrid, hnext, hp, hv⟩ := exists_successor hfinite hnonneg
  have hle := le_of_nearest_add_one hgrid hnext
  have hpos : 0 < magnitude r k := zero_lt_one.trans_le (one_le_of_nearest_add_one hnext)
  have hone : magnitude s e / magnitude r k ≤ 1 := (div_le_one hpos).2 hle
  obtain ⟨d, hrounds, hquotient⟩ := ofFloat32_div hp hv hpos.ne'
  obtain ⟨r', k', hnearest, hu⟩ := hrounds.exists_nearest regular_binary32
    (div_nonneg (magnitude_nonneg s e) hpos.le) (hone.trans_lt (by rw [overflow_binary32]; norm_num))
  rw [← hquotient] at hu
  rw [le_iff value?_float_zero hu, le_iff hu value?_float_one, lt_iff hu value?_float_one, lt_iff hp hv]
  refine ⟨magnitude_nonneg r' k', ?_, fun hlt => ?_, fun hlt => ?_⟩
  · have hbound := hnearest.mono regular_binary32 onGrid_one.nearest (magnitude_one.symm ▸ hone)
    rwa [magnitude_one] at hbound
  · -- a number over itself is one, which is not rounded
    refine lt_of_le_of_ne hle fun heq => hlt.ne ?_
    rw [heq, div_self hpos.ne', ← magnitude_one] at hnearest
    exact (hnearest.magnitude_eq onGrid_one).trans magnitude_one
  · have hbelow : binary32.OnGrid (2 ^ 24 - 1) (-24) := ⟨by decide, by decide, .inl (by decide)⟩
    have hbound := hnearest.mono regular_binary32 hbelow.nearest (div_le_belowOne hgrid hnext.onGrid hlt)
    refine hbound.trans_lt ?_
    rw [magnitude_belowOne]
    norm_num

/-- Adding one is not lost below `2 ^ 24`, and it is from `2 ^ 25` on. -/
theorem add_one_bounds (hfinite : z.isFinite = true) (hnonneg : 0.0 ≤ z) :
    (z < 16777216.0 → z < z + 1.0) ∧ (33554432.0 ≤ z → ¬ z < z + 1.0) := by
  obtain ⟨s, e, r, k, hgrid, hnext, hp, hv⟩ := exists_successor hfinite hnonneg
  rw [lt_iff hp value?_two_pow_24, le_iff value?_two_pow_25 hp, lt_iff hp hv, not_lt]
  exact ⟨lt_of_nearest_add_one hgrid hnext, le_magnitude_of_nearest_add_one hgrid hnext⟩

end Datum

/-! ### The composite -/

theorem Value.ofFloat_injective : Function.Injective Value.ofFloat := by
  intro x y h
  have hcomponents : [Scalar.float x] = [Scalar.float y] := congrArg Value.components h
  cases hcomponents
  rfl

/-- An input has one value at a time. -/
theorem Builder.Holds.unique {b : Builder} {input : Composite} {v w : Value} (hv : b.Holds input v)
    (hw : b.Holds input w) : v = w := by
  obtain ⟨h, hkept, hvertex⟩ := hv
  obtain ⟨h', hkept', hvertex'⟩ := hw
  cases hkept.symm.trans hkept'
  cases hvertex.symm.trans hvertex'
  rfl

namespace Session

/-- After any calls, the normalized z-index that one of them asked for is found, and it evaluates to the quotient of the
index and its successor. -/
theorem evaluate_normZ (configs : Vector Config n) (calls : List (Call n)) {call : Call n} (hcall : call ∈ calls)
    {g : Fin n} (hkeeps : (g, .normZ) ∈ call.keeps) {z : Float32}
    (hz : (((ofConfigs configs).after calls).builder g).Holds .zIndex (.ofFloat z)) (bindings : Bindings) :
    ∃ h, ((ofConfigs configs).after calls).Finds g .normZ h ∧
      (((ofConfigs configs).after calls).perform (.evaluate g (Composite.normZ.node g h) bindings)).1 =
        .ok (.value (.ofFloat (z / (z + 1.0)))) := by
  have hconfig : ((ofConfigs configs).builder g) = Builder.ofConfig (configs.get g) := builder_ofConfigs configs g
  have hshares : ((ofConfigs configs).builder g).Shares := hconfig ▸ .ofConfig _
  have hgrounds : ((ofConfigs configs).builder g).Grounds := by
    intro c h hc
    rw [hconfig] at hc
    exact absurd hc nofun
  obtain ⟨h, hkept⟩ := exists_kept_after hshares hcall hkeeps
  refine ⟨h, finds_of_kept hkept, ?_⟩
  obtain ⟨z', hz', heval⟩ := Composite.eval_normZ (grounds_after hgrounds hshares calls) (shares_after hshares calls)
    hkept bindings
  obtain rfl := Value.ofFloat_injective (hz'.unique hz)
  refine (perform_evaluate _ (Composite.normZ.node g h) bindings).trans ?_
  show (Graph.evaluate (((ofConfigs configs).after calls).builder g).graph bindings h).map Reply.value = _
  unfold Graph.evaluate
  rw [heval]
  rfl

/-- The normalized z-index of a finite index that is not negative is in the unit interval.  It is below one exactly if
adding one to the index is not lost, which it is not below `2 ^ 24`, and is from `2 ^ 25` on. -/
theorem normZ_evaluate_range (configs : Vector Config n) (calls : List (Call n)) {call : Call n} (hcall : call ∈ calls)
    {g : Fin n} (hkeeps : (g, .normZ) ∈ call.keeps) {z : Float32}
    (hz : (((ofConfigs configs).after calls).builder g).Holds .zIndex (.ofFloat z)) (hfinite : z.isFinite = true)
    (hnonneg : 0.0 ≤ z) (bindings : Bindings) :
    ∃ h f, ((ofConfigs configs).after calls).Finds g .normZ h ∧
      (((ofConfigs configs).after calls).perform (.evaluate g (Composite.normZ.node g h) bindings)).1 =
        .ok (.value (.ofFloat f)) ∧
      0.0 ≤ f ∧ f ≤ 1.0 ∧ (f < 1.0 ↔ z < z + 1.0) ∧ (z < 16777216.0 → f < 1.0) ∧ (33554432.0 ≤ z → ¬ f < 1.0) := by
  obtain ⟨h, hfinds, hevaluate⟩ := evaluate_normZ configs calls hcall hkeeps hz bindings
  obtain ⟨hlower, hupper, hiff⟩ := Datum.normalized_bounds hfinite hnonneg
  obtain ⟨hkept, hlost⟩ := Datum.add_one_bounds hfinite hnonneg
  exact ⟨h, _, hfinds, hevaluate, hlower, hupper, hiff, fun hlt => hiff.2 (hkept hlt),
    fun hge => hiff.not.2 (hlost hge)⟩

def raise (g : Fin n) (z : Float32) : List (Call n) :=
  [.composite g .normZ, .request g (.setUniform ⟨0⟩ (.ofFloat z))]

/-- Graphs one of which has its z-index set after the normalized one is built. -/
def raised (g : Fin n) (z : Float32) : Session n :=
  (ofConfigs (Vector.replicate n .standard)).after (raise g z)

/-- The last index before `2 ^ 24`. -/
theorem normZ_evaluate_range_raised :
    ∃ h f, (raised (0 : Fin 1) 16777215.0).Finds 0 .normZ h ∧
      ((raised (0 : Fin 1) 16777215.0).perform (.evaluate 0 (Composite.normZ.node 0 h) .empty)).1 =
        .ok (.value (.ofFloat f)) ∧
      0.0 ≤ f ∧ f < 1.0 := by
  have hz : ((raised (0 : Fin 1) 16777215.0).builder 0).Holds .zIndex (.ofFloat 16777215.0) :=
    ⟨⟨0⟩, by decide +kernel, by decide +kernel⟩
  obtain ⟨h, f, hfinds, hevaluate, hlower, _, _, hbelow, _⟩ := normZ_evaluate_range (Vector.replicate 1 .standard)
    (raise 0 16777215.0) List.mem_cons_self List.mem_cons_self hz (by decide +kernel) (by decide +kernel) .empty
  exact ⟨h, f, hfinds, hevaluate, hlower, hbelow (by decide +kernel)⟩

/-- At `2 ^ 24` adding one is lost, so that the normalized index is one. -/
theorem normZ_evaluate_eq_one :
    Float32.isFinite 16777216.0 = true ∧ (0.0 : Float32) ≤ 16777216.0 ∧
      ((raised (0 : Fin 1) 16777216.0).builder 0).Holds .zIndex (.ofFloat 16777216.0) ∧
      ∃ h, (raised (0 : Fin 1) 16777216.0).Finds 0 .normZ h ∧
        ((raised (0 : Fin 1) 16777216.0).perform (.evaluate 0 (Composite.normZ.node 0 h) .empty)).1 =
          .ok (.value (.ofFloat 1.0)) ∧
        ¬ (1.0 : Float32) < 1.0 := by
  have hone : (16777216.0 / (16777216.0 + 1.0) : Float32) = 1.0 := by decide +kernel
  have hz : ((raised (0 : Fin 1) 16777216.0).builder 0).Holds .zIndex (.ofFloat 16777216.0) :=
    ⟨⟨0⟩, by decide +kernel, by decide +kernel⟩
  obtain ⟨h, hfinds, hevaluate⟩ := evaluate_normZ (Vector.replicate 1 .standard) (raise 0 16777216.0)
    List.mem_cons_self List.mem_cons_self hz .empty
  rw [hone] at hevaluate
  exact ⟨by decide +kernel, by decide +kernel, hz, h, hfinds, hevaluate, by decide +kernel⟩

end Session

end ShaderExpr
