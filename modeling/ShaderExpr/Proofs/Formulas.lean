import ShaderExpr.Proofs.Components
import ShaderExpr.Proofs.Grounds
import ShaderExpr.Proofs.Soundness

/-!
# What composites evaluate to

A composite is an expression over the well-known inputs.  `Composite.Formula` gives its value as a formula over the
values that these inputs have now: over the uniforms as they were set last, and over what the attribute of the texture
coordinates is bound to.  Every composite that was asked for evaluates to its formula after any calls
(`Session.composites_evaluate`), since it is grounded.

An entry of a product of matrices is a sum of products of floats, in the order of the columns of the left matrix
(`Value.floatAt_multiply`).
-/

namespace ShaderExpr

variable {n : Nat}

/-- The value that an input has now. -/
def Builder.Holds (b : Builder) (input : Composite) (value : Value) : Prop :=
  ∃ h, b.composites input = some h ∧ b.graph.vertex? h = some (.uniform input.ty value)

/-- The float in a row of a column of a matrix; a vector is one column. -/
def Value.floatAt (v : Value) (row column : Nat) : Float32 :=
  v.floats.getD (column * v.ty.dim.width + row) 0.0

/-- A matrix is the product of two: an entry is summed from the first column of the left one to the last. -/
structure Value.IsProduct (product left right : Value) : Prop where
  ty : product.ty = .mat4
  left_ty : left.ty = .mat4
  right_ty : right.ty = .mat4
  floatAt : ∀ row < 4, ∀ column < 4, product.floatAt row column =
    left.floatAt row 0 * right.floatAt 0 column + left.floatAt row 1 * right.floatAt 1 column +
      left.floatAt row 2 * right.floatAt 2 column + left.floatAt row 3 * right.floatAt 3 column

/-- The outcome of evaluating a composite. -/
inductive Composite.Formula (b : Builder) (bindings : Bindings) : Composite → Except Error Value → Prop where
  | uv {bound : Value} (hbound : bindings.get? b.config.names.uv = some bound) (hty : bound.ty = .vec2) :
    Formula b bindings uv (.ok bound)
  /-- Texture coordinates fail with their attribute, flipped or not. -/
  | unbound {c : Composite} (hc : c = uv ∨ c = legacyUv) (hbound : bindings.get? b.config.names.uv = none) :
    Formula b bindings c (.error (.unevaluable (EvalFailure.attributeUnbound b.config.names.uv).reason))
  | mistyped {c : Composite} {bound : Value} (hc : c = uv ∨ c = legacyUv)
    (hbound : bindings.get? b.config.names.uv = some bound) (hty : bound.ty ≠ .vec2) :
    Formula b bindings c
      (.error (.unevaluable (EvalFailure.attributeType b.config.names.uv bound.ty .vec2).reason))
  | input {c : Composite} {value : Value} (hc : c = zIndex ∨ c = viewMatrix ∨ c = worldMatrix)
    (hvalue : b.Holds c value) : Formula b bindings c (.ok value)
  | modelView {view world product : Value} (hview : b.Holds viewMatrix view) (hworld : b.Holds worldMatrix world)
    (hproduct : product.IsProduct view world) : Formula b bindings modelView (.ok product)
  /-- The vertical coordinate is flipped. -/
  | legacyUv {bound flipped : Value} {u v : Float32} (hbound : bindings.get? b.config.names.uv = some bound)
    (hty : bound.ty = .vec2) (hcomponents : bound.components = [.float u, .float v]) (hflippedty : flipped.ty = .vec2)
    (hflipped : flipped.components = [.float u, .float (1.0 - v)]) : Formula b bindings legacyUv (.ok flipped)
  | normZ {z : Float32} (hz : b.Holds zIndex (.ofFloat z)) : Formula b bindings normZ (.ok (.ofFloat (z / (z + 1.0))))
  /-- The normalized z-index over the divisor, at the configured component. -/
  | depthBias {z : Float32} {bias : Value} (hz : b.Holds zIndex (.ofFloat z)) (hty : bias.ty = .vec3)
    (hcomponents : bias.components = (List.replicate 3 (Scalar.float 0.0)).set b.config.depthBias.component.index
      (.float (z / (z + 1.0) / b.config.depthBias.divisor))) : Formula b bindings depthBias (.ok bias)

theorem Bindings.value_eq_ok {bindings : Bindings} {ty : ValueType} {name : String} {v : Value} :
    bindings.value ty name = .ok v ↔ bindings.get? name = some v ∧ v.ty = ty := by
  unfold value
  cases bindings.get? name with
  | none => simp
  | some w =>
    by_cases hty : w.ty = ty
    · simp only [if_pos hty, Except.ok.injEq, Option.some.injEq]
      exact ⟨fun h => ⟨h, h ▸ hty⟩, fun h => h.1⟩
    · simp only [if_neg hty, Option.some.injEq]
      exact iff_of_false nofun fun h => hty (h.1 ▸ h.2)

namespace Value

/-- The components of a value of floats. -/
theorem components_eq_floats {v : Value} (h : v.ty.kind = .float) : v.components = v.floats.map .float := by
  unfold floats
  rw [List.map_map]
  conv => lhs; rw [← List.map_id v.components]
  refine List.map_congr_left fun c hc => ?_
  have hkind : c.kind = .float := (v.kind_of_mem c hc).trans h
  cases c with
  | float x => rfl
  | _ => exact absurd hkind nofun

theorem exists_ofFloat {v : Value} (h : v.ty = .float) : ∃ x, v = ofFloat x := by
  have hkind : v.ty.kind = .float := congrArg ValueType.kind h
  have hlength := v.length_components
  rw [components_eq_floats hkind, List.length_map, h] at hlength
  obtain ⟨x, hx⟩ := List.length_eq_one_iff.1 hlength
  refine ⟨x, ext h ?_⟩
  rw [components_eq_floats hkind, hx]
  rfl

theorem exists_pair {v : Value} (h : v.ty = .vec2) : ∃ x y, v.components = [.float x, .float y] := by
  have hkind : v.ty.kind = .float := congrArg ValueType.kind h
  have hlength := v.length_components
  rw [components_eq_floats hkind, List.length_map, h] at hlength
  obtain ⟨x, y, hxy⟩ := List.length_eq_two.1 hlength
  refine ⟨x, y, ?_⟩
  rw [components_eq_floats hkind, hxy]
  rfl

theorem apply_oneMinus (x : Float32) : Op.oneMinus.apply .float [ofFloat x] = .ok (ofFloat (1.0 - x)) := by
  have hone : rebuild .float [.int 1] = .ok (ofFloat 1.0) := by decide +kernel
  show (rebuild .float [.int 1] >>= fun one => componentwise .sub .float one (ofFloat x)) = _
  rw [hone]
  rfl

/-- An entry of a product is the sum, from the first column of the left matrix to the last, of the entry there times
the one that it meets in the right operand. -/
theorem floatAt_multiply {left right : Value} (floats : right.ty.kind = .float) (hdim : right.ty.dim = left.ty.dim)
    {row column : Nat} (hrow : row < left.ty.dim.width)
    (hcolumn : column * left.ty.dim.width + row < right.ty.componentCount) :
    (left.multiply right floats).floatAt row column =
      sumFromFirst ((List.range left.ty.dim.width).map fun k => left.floatAt row k * right.floatAt k column) := by
  have hwidth : (left.multiply right floats).ty.dim.width = left.ty.dim.width := congrArg Dim.width hdim
  have hfloats : (left.multiply right floats).floats = (List.range right.ty.componentCount).map fun i =>
      entry left.ty.dim.width left.floats right.floats (i % left.ty.dim.width)
        (i / left.ty.dim.width * left.ty.dim.width) :=
    List.map_map
  have hmod : (column * left.ty.dim.width + row) % left.ty.dim.width = row := Nat.mul_add_mod_of_lt hrow
  have hdiv : (column * left.ty.dim.width + row) / left.ty.dim.width = column := by
    rw [Nat.mul_comm, Nat.mul_add_div (Nat.zero_lt_of_lt hrow), Nat.div_eq_of_lt hrow, Nat.add_zero]
  unfold floatAt
  rw [hwidth, hfloats, List.getD_eq_getElem?_getD, List.getElem?_map, List.getElem?_range hcolumn, hdim]
  dsimp only [Option.map_some, Option.getD_some]
  rw [hmod, hdiv]
  rfl

theorem isProduct_multiply {left right : Value} (hleft : left.ty = .mat4) (hright : right.ty = .mat4)
    (floats : right.ty.kind = .float) : (left.multiply right floats).IsProduct left right where
  ty := hright
  left_ty := hleft
  right_ty := hright
  floatAt row hrow column hcolumn := by
    have hdim : right.ty.dim = left.ty.dim := by rw [hleft, hright]
    have hwidth : left.ty.dim.width = 4 := by rw [hleft]; rfl
    have hcount : right.ty.componentCount = 16 := by rw [hright]; rfl
    rw [floatAt_multiply floats hdim (by omega) (by rw [hwidth, hcount]; omega), hwidth]
    rfl

/-- A matrix is determined by its entries. -/
theorem ext_floatAt {v w : Value} (hv : v.ty = .mat4) (hw : w.ty = .mat4)
    (h : ∀ row < 4, ∀ column < 4, v.floatAt row column = w.floatAt row column) : v = w := by
  have hlength : ∀ {m : Value}, m.ty = .mat4 → m.floats.length = 16 := by
    intro m hm
    unfold floats
    rw [List.length_map, m.length_components, hm]
    rfl
  have hentry : ∀ {m : Value}, m.ty = .mat4 → ∀ i, m.floatAt (i % 4) (i / 4) = m.floats.getD i 0.0 := by
    intro m hm i
    have hwidth : m.ty.dim.width = 4 := by rw [hm]; rfl
    unfold floatAt
    rw [hwidth, Nat.div_add_mod']
  have hfloats : v.floats = w.floats := by
    refine List.ext_getElem ((hlength hv).trans (hlength hw).symm) fun i hi hi' => ?_
    have hlt : i < 16 := hlength hv ▸ hi
    have hat := h (i % 4) (Nat.mod_lt i (by decide)) (i / 4) (by omega)
    rwa [hentry hv, hentry hw, List.getD_eq_getElem _ _ hi, List.getD_eq_getElem _ _ hi'] at hat
  refine ext (hv.trans hw.symm) ?_
  rw [components_eq_floats (congrArg ValueType.kind hv), components_eq_floats (congrArg ValueType.kind hw), hfloats]

/-- There is one product of two matrices. -/
theorem IsProduct.unique {product product' left right : Value} (h : product.IsProduct left right)
    (h' : product'.IsProduct left right) : product = product' := by
  refine ext_floatAt h.ty h'.ty fun row hrow column hcolumn => ?_
  rw [h.floatAt row hrow column hcolumn, h'.floatAt row hrow column hcolumn]

theorem exists_apply_mul_matrix {left right : Value} (hleft : left.ty = .mat4) (hright : right.ty = .mat4) :
    ∃ product : Value, (Op.binary .mul).apply .mat4 [left, right] = .ok product ∧ product.IsProduct left right := by
  have hmultiplies : left.multiplies right = true := by
    unfold multiplies
    rw [hleft, hright]
    rfl
  refine ⟨_, ?_, isProduct_multiply hleft hright (congrArg ValueType.kind hright)⟩
  show binary .mul .mat4 left right = _
  unfold binary
  rw [dif_pos ⟨rfl, hmultiplies⟩]

end Value

/-! ### Evaluations -/

namespace Composite

variable {b : Builder} {h : Handle}

/-- Texture coordinates have what their attribute is bound to, which may not be a pair of floats. -/
theorem eval_uv (hs : b.Shares) (hc : b.composites uv = some h) (bindings : Bindings) :
    b.graph.eval bindings h = bindings.value .vec2 b.config.names.uv := by
  cases hs uv h hc with
  | uv hv => exact Graph.eval_attr hv bindings

theorem eval_zIndex (hs : b.Shares) (hc : b.composites zIndex = some h) (bindings : Bindings) :
    ∃ z, b.Holds zIndex (.ofFloat z) ∧ b.graph.eval bindings h = .ok (.ofFloat z) := by
  cases hs zIndex h hc with
  | zIndex hv hty =>
    obtain ⟨z, rfl⟩ := Value.exists_ofFloat hty
    exact ⟨z, ⟨h, hc, hv⟩, Graph.eval_uniform hv bindings⟩

theorem eval_viewMatrix (hs : b.Shares) (hc : b.composites viewMatrix = some h) (bindings : Bindings) :
    ∃ m, b.Holds viewMatrix m ∧ m.ty = .mat4 ∧ b.graph.eval bindings h = .ok m := by
  cases hs viewMatrix h hc with
  | viewMatrix hv hty => exact ⟨_, ⟨h, hc, hv⟩, hty, Graph.eval_uniform hv bindings⟩

theorem eval_worldMatrix (hs : b.Shares) (hc : b.composites worldMatrix = some h) (bindings : Bindings) :
    ∃ m, b.Holds worldMatrix m ∧ m.ty = .mat4 ∧ b.graph.eval bindings h = .ok m := by
  cases hs worldMatrix h hc with
  | worldMatrix hv hty => exact ⟨_, ⟨h, hc, hv⟩, hty, Graph.eval_uniform hv bindings⟩

theorem eval_modelView (hb : b.Grounds) (hs : b.Shares) (hc : b.composites modelView = some h)
    (bindings : Bindings) : ∃ view world product, b.Holds viewMatrix view ∧ b.Holds worldMatrix world ∧
      product.IsProduct view world ∧ b.graph.eval bindings h = .ok product := by
  have hgrounded := hb modelView h hc
  cases hs modelView h hc with
  | modelView hview hworld hv =>
    obtain ⟨m, hm, hmty, hmeval⟩ := eval_viewMatrix hs hview bindings
    obtain ⟨w, hw, hwty, hweval⟩ := eval_worldMatrix hs hworld bindings
    obtain ⟨product, happly, hproduct⟩ := Value.exists_apply_mul_matrix hmty hwty
    refine ⟨m, w, product, hm, hw, hproduct, ?_⟩
    have hleft := (hgrounded.readsNow hv List.mem_cons_self).1
    have hright := (hgrounded.readsNow hv (List.mem_cons_of_mem _ List.mem_cons_self)).1
    rw [Graph.eval_binary hv hleft hright, hmeval, hweval]
    exact happly

/-- Flipped texture coordinates have a value if the coordinates have, and fail as they do. -/
theorem eval_legacyUv (hb : b.Grounds) (hs : b.Shares) (hc : b.composites legacyUv = some h) (bindings : Bindings) :
    (∃ failure, bindings.value .vec2 b.config.names.uv = .error failure ∧
        b.graph.eval bindings h = .error failure) ∨
      ∃ bound u v flipped, bindings.value .vec2 b.config.names.uv = .ok bound ∧
        bound.components = [.float u, .float v] ∧ b.graph.eval bindings h = .ok flipped ∧ flipped.ty = .vec2 ∧
          flipped.components = [.float u, .float (1.0 - v)] := by
  have hx : ValueType.vec2.checkAccess "x" = .ok .float := by decide
  have hy : ValueType.vec2.checkAccess "y" = .ok .float := by decide
  have hgrounded := hb legacyUv h hc
  cases hs legacyUv h hc with
  | @legacyUv _ coordinates u v flipped hcoordinates hu hv hflipped hvector =>
    -- the way down from the vector to the coordinates
    obtain ⟨hreadu, hgroundu⟩ := hgrounded.readsNow hvector (o := u) List.mem_cons_self
    obtain ⟨hreadf, hgroundf⟩ := hgrounded.readsNow hvector (o := flipped) (by simp [Vertex.reads])
    obtain ⟨hreadv, hgroundv⟩ := hgroundf.readsNow hflipped List.mem_cons_self
    have hreadx := (hgroundu.readsNow hu List.mem_cons_self).1
    have hready := (hgroundv.readsNow hv List.mem_cons_self).1
    rw [Graph.eval_binary hvector hreadu hreadf, Graph.eval_unary hflipped hreadv, Graph.eval_component hu hreadx,
      Graph.eval_component hv hready, eval_uv hs hcoordinates]
    cases hvalue : bindings.value .vec2 b.config.names.uv with
    | error failure => exact .inl ⟨failure, rfl, rfl⟩
    | ok bound =>
      have hty := (Bindings.value_eq_ok.1 hvalue).2
      obtain ⟨x, y, hxy⟩ := Value.exists_pair hty
      have hfirst : bound.access coordinates "x" .float = .ok (.ofFloat x) := by
        refine Value.access_eq_ok (w := .ofFloat x) coordinates (hty ▸ hx) ?_
        rw [hxy]
        rfl
      have hsecond : bound.access coordinates "y" .float = .ok (.ofFloat y) := by
        refine Value.access_eq_ok (w := .ofFloat y) coordinates (hty ▸ hy) ?_
        rw [hxy]
        rfl
      obtain ⟨flipped, hrebuild, hflippedty, hflipped⟩ := Value.exists_rebuild .vec2
        [.float x, .float (1.0 - y)] rfl (by simp [Scalar.kind, ValueType.kind])
      refine .inr ⟨bound, x, y, flipped, rfl, hxy, ?_, hflippedty, hflipped⟩
      dsimp only [bind, Except.bind]
      rw [hfirst, hsecond]
      dsimp only
      rw [Value.apply_oneMinus]
      exact hrebuild

theorem eval_normZ (hb : b.Grounds) (hs : b.Shares) (hc : b.composites normZ = some h) (bindings : Bindings) :
    ∃ z, b.Holds zIndex (.ofFloat z) ∧ b.graph.eval bindings h = .ok (.ofFloat (z / (z + 1.0))) := by
  have hgrounded := hb normZ h hc
  cases hs normZ h hc with
  | @normZ _ k one next hz hone hnext hv =>
    obtain ⟨z, hholds, hzeval⟩ := eval_zIndex hs hz bindings
    refine ⟨z, hholds, ?_⟩
    have hreadz := (hgrounded.readsNow hv (o := k) List.mem_cons_self).1
    obtain ⟨hreadn, hgroundn⟩ := hgrounded.readsNow hv (o := next) (by simp [Vertex.reads])
    have hreadz' := (hgroundn.readsNow hnext (o := k) List.mem_cons_self).1
    have hreado := (hgroundn.readsNow hnext (o := one) (by simp [Vertex.reads])).1
    rw [Graph.eval_binary hv hreadz hreadn, Graph.eval_binary hnext hreadz' hreado, Graph.eval_constant hone, hzeval]
    rfl

theorem eval_depthBias (hb : b.Grounds) (hs : b.Shares) (hc : b.composites depthBias = some h) (bindings : Bindings) :
    ∃ z bias, b.Holds zIndex (.ofFloat z) ∧ b.graph.eval bindings h = .ok bias ∧ bias.ty = .vec3 ∧
      bias.components = (List.replicate 3 (Scalar.float 0.0)).set b.config.depthBias.component.index
        (.float (z / (z + 1.0) / b.config.depthBias.divisor)) := by
  have hgrounded := hb depthBias h hc
  cases hs depthBias h hc with
  | @depthBias _ k divisor bias operands hz hdivisor hbias hv hlength hcomponent hothers =>
    obtain ⟨z, hholds, hzeval⟩ := eval_normZ hb hs hz bindings
    have hreads : ∀ o ∈ operands, b.graph.ReadsNow h o := fun o ho => (hgrounded.readsNow hv ho).1
    have hquotient : b.graph.eval bindings bias = .ok (.ofFloat (z / (z + 1.0) / b.config.depthBias.divisor)) := by
      have hgroundb := (hgrounded.readsNow hv (List.mem_of_getElem? hcomponent)).2
      have hreadz := (hgroundb.readsNow hbias (o := k) List.mem_cons_self).1
      have hreadd := (hgroundb.readsNow hbias (o := divisor) (by simp [Vertex.reads])).1
      rw [Graph.eval_binary hbias hreadz hreadd, Graph.eval_constant hdivisor, hzeval]
      rfl
    have hoperand : ∀ axis : Axis, ∃ o, operands[axis.index]? = some o ∧ b.graph.eval bindings o =
        .ok (.ofFloat (if axis = b.config.depthBias.component then z / (z + 1.0) / b.config.depthBias.divisor
          else 0.0)) := by
      intro axis
      by_cases haxis : axis = b.config.depthBias.component
      · rw [if_pos haxis, haxis]
        exact ⟨bias, hcomponent, hquotient⟩
      · obtain ⟨o, ho, hzero⟩ := hothers axis haxis
        rw [if_neg haxis]
        exact ⟨o, ho, Graph.eval_constant hzero bindings⟩
    obtain ⟨o₁, ho₁, heval₁⟩ := hoperand .x
    obtain ⟨o₂, ho₂, heval₂⟩ := hoperand .y
    obtain ⟨o₃, ho₃, heval₃⟩ := hoperand .z
    match operands, hlength with
    | [_, _, _], _ =>
      cases ho₁
      cases ho₂
      cases ho₃
      obtain ⟨vector, hrebuild, hty, hcomponents⟩ := Value.exists_rebuild .vec3
        ([Axis.x, .y, .z].map fun axis => .float (if axis = b.config.depthBias.component
          then z / (z + 1.0) / b.config.depthBias.divisor else 0.0)) rfl (by simp [Scalar.kind, ValueType.kind])
      refine ⟨z, vector, hholds, ?_, hty, ?_⟩
      · rw [Graph.eval_op hv hreads]
        simp only [List.mapM_cons, List.mapM_nil, heval₁, heval₂, heval₃]
        exact hrebuild
      · rw [hcomponents]
        cases b.config.depthBias.component <;> rfl

end Composite

namespace Composite

variable {b : Builder} {c : Composite} {h : Handle}

private theorem formula_of_value_error {bindings : Bindings} {failure : EvalFailure} (hc : c = uv ∨ c = legacyUv)
    (hvalue : bindings.value .vec2 b.config.names.uv = .error failure) :
    c.Formula b bindings (.error failure.error) := by
  unfold Bindings.value at hvalue
  split at hvalue
  · rename_i bound hbound
    split at hvalue
    · exact absurd hvalue nofun
    · rename_i hty
      cases hvalue
      exact .mistyped hc hbound hty
  · rename_i hbound
    cases hvalue
    exact .unbound hc hbound

/-- Every composite that is kept evaluates to its formula. -/
theorem formula_evaluate (hb : b.Grounds) (hs : b.Shares) (hc : b.composites c = some h) (bindings : Bindings) :
    c.Formula b bindings (b.graph.evaluate bindings h) := by
  unfold Graph.evaluate
  cases c with
  | uv =>
    rw [eval_uv hs hc]
    cases hvalue : bindings.value .vec2 b.config.names.uv with
    | error failure => exact formula_of_value_error (.inl rfl) hvalue
    | ok bound =>
      obtain ⟨hbound, hty⟩ := Bindings.value_eq_ok.1 hvalue
      exact .uv hbound hty
  | zIndex =>
    obtain ⟨z, hz, heval⟩ := eval_zIndex hs hc bindings
    rw [heval]
    exact .input (.inl rfl) hz
  | viewMatrix =>
    obtain ⟨m, hm, _, heval⟩ := eval_viewMatrix hs hc bindings
    rw [heval]
    exact .input (.inr (.inl rfl)) hm
  | worldMatrix =>
    obtain ⟨m, hm, _, heval⟩ := eval_worldMatrix hs hc bindings
    rw [heval]
    exact .input (.inr (.inr rfl)) hm
  | modelView =>
    obtain ⟨view, world, product, hview, hworld, hproduct, heval⟩ := eval_modelView hb hs hc bindings
    rw [heval]
    exact .modelView hview hworld hproduct
  | legacyUv =>
    rcases eval_legacyUv hb hs hc bindings with
      ⟨failure, hvalue, heval⟩ | ⟨bound, u, v, flipped, hvalue, hcomponents, heval, hflippedty, hflipped⟩
    · rw [heval]
      exact formula_of_value_error (.inr rfl) hvalue
    · obtain ⟨hbound, hty⟩ := Bindings.value_eq_ok.1 hvalue
      rw [heval]
      exact .legacyUv hbound hty hcomponents hflippedty hflipped
  | normZ =>
    obtain ⟨z, hz, heval⟩ := eval_normZ hb hs hc bindings
    rw [heval]
    exact .normZ hz
  | depthBias =>
    obtain ⟨z, bias, hz, heval, hty, hcomponents⟩ := eval_depthBias hb hs hc bindings
    rw [heval]
    exact .depthBias hz hty hcomponents

end Composite

namespace Session

/-- After any calls, a composite that one of them asked for is found, and it evaluates to its formula over what the
inputs hold now. -/
theorem composites_evaluate (configs : Vector Config n) (calls : List (Call n)) (g : Fin n) (bindings : Bindings) :
    let s := (ofConfigs configs).after calls
    (s.builder g).config = configs.get g ∧
      (∀ call ∈ calls, ∀ c, (g, c) ∈ call.keeps → ∃ h, s.Finds g c h) ∧
      ∀ c h, s.Finds g c h → ∃ outcome,
        (s.perform (.evaluate g (c.node g h) bindings)).1 = outcome.map .value ∧
          c.Formula (s.builder g) bindings outcome := by
  intro s
  have hconfig : ((ofConfigs configs).builder g) = Builder.ofConfig (configs.get g) := builder_ofConfigs configs g
  have hs₀ : ((ofConfigs configs).builder g).Shares := hconfig ▸ .ofConfig _
  have hb₀ : ((ofConfigs configs).builder g).Grounds := by
    intro c h hc
    rw [hconfig] at hc
    exact absurd hc nofun
  have hs : (s.builder g).Shares := shares_after hs₀ calls
  have hb : (s.builder g).Grounds := grounds_after hb₀ hs₀ calls
  refine ⟨?_, ?_, ?_⟩
  · rw [(extends_after _ calls g).config, hconfig]
    rfl
  · intro call hcall c hc
    obtain ⟨h, hkept⟩ := exists_kept_after hs₀ hcall hc
    exact ⟨h, finds_of_kept hkept⟩
  · intro c h hfinds
    refine ⟨_, perform_evaluate s (c.node g h) bindings, ?_⟩
    exact Composite.formula_evaluate hb hs (finds_iff.1 hfinds) bindings

end Session

end ShaderExpr
