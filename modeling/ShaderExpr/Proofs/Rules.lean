import ShaderExpr.Proofs.Constructors

/-!
# The rules behind the tables

The tables list operators, accessors and conversions type by type.  The rules that they follow are about kinds and
dimensions: `BinaryOp.Accepts` has one constructor for each rule of an operator, and `ValueType.Accesses` tells which
names are accessors of a vector.  A search in a table finds exactly what the rules allow
(`BinaryOp.result?_eq_some_iff`, `accessorResult?_eq_some_iff`).

So every call of an operator, an accessor, a conversion or an assignment is decided by these rules
(`Session.follows_rules`), for all nodes, literals and names.
-/

namespace ShaderExpr

variable {n : Nat}

/-- The rules of the operators: left operand, right operand and result. -/
inductive BinaryOp.Accepts : BinaryOp → ValueType → OperandType → ValueType → Prop where
  | same {op : BinaryOp} {ty : ValueType} (hop : op = mul ∨ op = add ∨ op = sub) (hty : ty.isNumeric = true) :
    Accepts op ty (.typed ty) ty
  /-- One number for all components. -/
  | scalar {op : BinaryOp} {ty : ValueType} (hop : op ≠ lessThan) (hty : ty.isNumeric = true) :
    Accepts op ty (.typed ty.scalarType) ty
  | literal {op : BinaryOp} {ty : ValueType} (hop : op ≠ lessThan) (hty : ty.isNumeric = true) :
    Accepts op ty .literal ty
  /-- A matrix applied to a vector of floats of its dimension. -/
  | column {matrix vector : ValueType} (hmatrix : matrix.isMatrix = true) (hvector : vector.isVector = true)
    (hkind : vector.kind = .float) (hdim : vector.dim = matrix.dim) : Accepts mul matrix (.typed vector) vector
  | comparison {ty : ValueType} (hty : ty.isNumeric = true) (hscalar : ty.isScalar = true) :
    Accepts lessThan ty (.typed ty) .bool
  | comparisonWithLiteral {ty : ValueType} (hty : ty.isNumeric = true) (hscalar : ty.isScalar = true) :
    Accepts lessThan ty .literal .bool

namespace BinaryOp.Accepts

variable {op : BinaryOp} {ty result : ValueType} {right : OperandType}

/-- Except for comparisons, results have the kind of the left operand. -/
theorem kind_eq (h : op.Accepts ty right result) (hop : op ≠ lessThan) : result.kind = ty.kind := by
  cases h with
  | column hmatrix _ hkind =>
    rw [hkind]
    revert hmatrix
    cases ty <;> simp [ValueType.isMatrix, ValueType.kind]
  | comparison => exact absurd rfl hop
  | comparisonWithLiteral => exact absurd rfl hop
  | _ => rfl

/-- Except for comparisons and the products of a matrix, operators have the type of their left operand. -/
theorem result_eq (h : op.Accepts ty right result) (hop : op ≠ lessThan) (hmatrix : ty.isMatrix = false) :
    result = ty := by
  cases h with
  | column hmatrix' => exact absurd (hmatrix'.symm.trans hmatrix) Bool.noConfusion
  | comparison => exact absurd rfl hop
  | comparisonWithLiteral => exact absurd rfl hop
  | _ => rfl

/-- On the right of anything but a matrix is its type, a number of its kind, or a literal. -/
theorem right_cases (h : op.Accepts ty right result) (hmatrix : ty.isMatrix = false) :
    right = .typed ty ∨ right = .typed ty.scalarType ∨ right = .literal := by
  cases h with
  | column hmatrix' => exact absurd (hmatrix'.symm.trans hmatrix) Bool.noConfusion
  | same | comparison => exact .inl rfl
  | scalar => exact .inr (.inl rfl)
  | literal | comparisonWithLiteral => exact .inr (.inr rfl)

/-- Comparisons are of numbers, and give a boolean. -/
theorem of_lessThan (h : lessThan.Accepts ty right result) : ty.isScalar = true ∧ result = .bool := by
  cases h with
  | same hop => exact absurd hop (by simp)
  | scalar hop | literal hop => exact absurd rfl hop
  | comparison _ hscalar | comparisonWithLiteral _ hscalar => exact ⟨hscalar, rfl⟩

end BinaryOp.Accepts

namespace Rule

theorem mem_scalars {ty : ValueType} : ty ∈ scalars ↔ ty.isNumeric = true ∧ ty.isScalar = true := by
  cases ty <;> decide

theorem mem_matrices {ty : ValueType} : ty ∈ matrices ↔ ty.isMatrix = true := by
  cases ty <;> decide

theorem isNumeric_of_mem {ty : ValueType} (h : ty ∈ scalars ++ vectors ++ matrices) : ty.isNumeric = true := by
  revert h
  cases ty <;> decide

end Rule

namespace BinaryOp

variable {op : BinaryOp} {left result : ValueType} {right : OperandType}

/-- A matrix takes the vector that is its column. -/
private theorem accepts_onColumn {ty : ValueType} (hty : ty.isMatrix = true) :
    Accepts mul ty (.typed ty.column) ty.column := by
  cases ty with
  | mat2 | mat3 | mat4 => exact .column rfl rfl rfl rfl
  | _ => exact absurd hty Bool.false_ne_true

/-- The rules that a table lists are rules of the language. -/
theorem accepts_of_mem {rule : Rule} (h : rule ∈ op.rules) : op.Accepts rule.left rule.right rule.result := by
  have hnumeric : ∀ {ty : ValueType}, ty ∈ Rule.scalars ∨ ty ∈ Rule.vectors ∨ ty ∈ Rule.matrices →
      ty.isNumeric = true := by
    intro ty hty
    refine Rule.isNumeric_of_mem ?_
    simpa [or_assoc] using hty
  cases op with
  | mul =>
    simp only [rules, List.mem_append, List.mem_flatMap, List.mem_cons, List.not_mem_nil, or_false] at h
    rcases h with (⟨ty, hty, rfl | rfl⟩ | ⟨ty, hty, rfl | rfl | rfl⟩) | ⟨ty, hty, rfl | rfl | rfl | rfl⟩
    · exact .same (.inl rfl) (hnumeric (.inl hty))
    · exact .literal nofun (hnumeric (.inl hty))
    · exact .same (.inl rfl) (hnumeric (.inr (.inl hty)))
    · exact .scalar nofun (hnumeric (.inr (.inl hty)))
    · exact .literal nofun (hnumeric (.inr (.inl hty)))
    · exact .same (.inl rfl) (hnumeric (.inr (.inr hty)))
    · exact accepts_onColumn (Rule.mem_matrices.1 hty)
    · exact .scalar nofun (hnumeric (.inr (.inr hty)))
    · exact .literal nofun (hnumeric (.inr (.inr hty)))
  | add | sub =>
    simp only [rules, List.mem_append, List.mem_flatMap, List.mem_cons, List.not_mem_nil, or_false] at h
    rcases h with ⟨ty, hty, rfl | rfl⟩ | ⟨ty, hty, rfl | rfl | rfl⟩
    · exact .same (by simp) (hnumeric (.inl hty))
    · exact .literal nofun (hnumeric (.inl hty))
    · exact .same (by simp) (hnumeric (.inr hty))
    · exact .scalar nofun (hnumeric (.inr hty))
    · exact .literal nofun (hnumeric (.inr hty))
  | div =>
    simp only [rules, List.mem_flatMap, List.mem_cons, List.not_mem_nil, or_false] at h
    rcases h with ⟨ty, hty, rfl | rfl⟩
    · exact .scalar nofun (Rule.isNumeric_of_mem hty)
    · exact .literal nofun (Rule.isNumeric_of_mem hty)
  | lessThan =>
    simp only [rules, List.mem_flatMap, List.mem_cons, List.not_mem_nil, or_false] at h
    rcases h with ⟨ty, hty, rfl | rfl⟩
    · exact .comparison (Rule.mem_scalars.1 hty).1 (Rule.mem_scalars.1 hty).2
    · exact .comparisonWithLiteral (Rule.mem_scalars.1 hty).1 (Rule.mem_scalars.1 hty).2

/-- The tables list all rules of the language, and a search finds no other result for their operands. -/
theorem result?_of_accepts (h : op.Accepts left right result) : op.result? left right = some result := by
  have harithmetic : ∀ op ∈ all, ∀ ty ∈ ValueType.all, ty.isNumeric = true →
      (op = mul ∨ op = add ∨ op = sub → op.result? ty (.typed ty) = some ty) ∧
        (op ≠ lessThan → op.result? ty (.typed ty.scalarType) = some ty ∧ op.result? ty .literal = some ty) := by
    decide +kernel
  have hcolumn : ∀ matrix ∈ ValueType.all, ∀ vector ∈ ValueType.all, matrix.isMatrix = true →
      vector.isVector = true → vector.kind = .float → vector.dim = matrix.dim →
        mul.result? matrix (.typed vector) = some vector := by
    decide +kernel
  have hcomparison : ∀ ty ∈ ValueType.all, ty.isNumeric = true → ty.isScalar = true →
      lessThan.result? ty (.typed ty) = some .bool ∧ lessThan.result? ty .literal = some .bool := by
    decide +kernel
  cases h with
  | same hop hty => exact (harithmetic op op.mem_all left left.mem_all hty).1 hop
  | scalar hop hty => exact ((harithmetic op op.mem_all left left.mem_all hty).2 hop).1
  | literal hop hty => exact ((harithmetic op op.mem_all left left.mem_all hty).2 hop).2
  | column hmatrix hvector hkind hdim =>
    exact hcolumn left left.mem_all result result.mem_all hmatrix hvector hkind hdim
  | comparison hty hscalar => exact (hcomparison left left.mem_all hty hscalar).1
  | comparisonWithLiteral hty hscalar => exact (hcomparison left left.mem_all hty hscalar).2

theorem result?_eq_some_iff : op.result? left right = some result ↔ op.Accepts left right result := by
  constructor
  · intro h
    obtain ⟨rule, hmem, ⟨rfl, rfl⟩, rfl⟩ := exists_of_map_find? h
    exact accepts_of_mem hmem
  · exact result?_of_accepts

end BinaryOp

theorem oneMinusResult?_eq_some_iff {ty result : ValueType} :
    oneMinusResult? ty = some result ↔ ty.isNumeric = true ∧ ty.isScalar = true ∧ result = ty := by
  have hall : ∀ ty ∈ ValueType.all, ∀ result ∈ ValueType.all,
      oneMinusResult? ty = some result ↔ ty.isNumeric = true ∧ ty.isScalar = true ∧ result = ty := by
    decide +kernel
  exact hall ty ty.mem_all result result.mem_all

/-- The alphabets that accessors are spelled in, in the order of the components. -/
def Selector.alphabets : List (List Char) :=
  ["xyzw".toList, "rgba".toList]

/-- The accessors of a vector: a letter of one of its components, or neighbouring letters of one alphabet, in their
order and all among the first three.  The result has as many components of the same kind as there are letters. -/
structure ValueType.Accesses (source : ValueType) (name : String) (picked : ValueType) : Prop where
  vector : source.isVector = true
  kind : picked.kind = source.kind
  not_matrix : picked.isMatrix = false
  letters : ∃ alphabet ∈ Selector.alphabets, ∃ first, first + picked.dim.width ≤ source.dim.width ∧
    (picked.isVector = true → first + picked.dim.width ≤ 3) ∧
      name.toList = (alphabet.drop first).take picked.dim.width

theorem ValueType.width_le (ty : ValueType) : ty.dim.width ≤ 4 := by
  cases ty <;> decide

/-- The accessors that the table lists are accessors of the language. -/
theorem AccessorRule.accesses_of_mem {rule : AccessorRule} (h : rule ∈ table) :
    rule.source.Accesses rule.name rule.result := by
  have htable : ∀ rule ∈ table, rule.source.isVector = true ∧ rule.result.kind = rule.source.kind ∧
      rule.result.isMatrix = false ∧
        ∃ alphabet ∈ Selector.alphabets, ∃ first ∈ List.range 4,
          first + rule.result.dim.width ≤ rule.source.dim.width ∧
            (rule.result.isVector = true → first + rule.result.dim.width ≤ 3) ∧
              rule.name.toList = (alphabet.drop first).take rule.result.dim.width := by
    decide +kernel
  obtain ⟨hvector, hkind, hmatrix, alphabet, halphabet, first, _, hletters⟩ := htable rule h
  exact ⟨hvector, hkind, hmatrix, alphabet, halphabet, first, hletters⟩

theorem accessorResult?_of_accesses {source picked : ValueType} {name : String}
    (h : source.Accesses name picked) : accessorResult? source name = some picked := by
  have hall : ∀ source ∈ ValueType.all, ∀ picked ∈ ValueType.all, source.isVector = true →
      picked.kind = source.kind → picked.isMatrix = false →
        ∀ alphabet ∈ Selector.alphabets, ∀ first ∈ List.range 4,
          first + picked.dim.width ≤ source.dim.width → (picked.isVector = true → first + picked.dim.width ≤ 3) →
            accessorResult? source (String.ofList ((alphabet.drop first).take picked.dim.width)) = some picked := by
    decide +kernel
  obtain ⟨alphabet, halphabet, first, hwidth, hthree, hname⟩ := h.letters
  have hfirst : first ∈ List.range 4 := by
    have := source.width_le
    have := picked.dim.width_pos
    rw [List.mem_range]
    omega
  have hfound := hall source source.mem_all picked picked.mem_all h.vector h.kind h.not_matrix alphabet halphabet
    first hfirst hwidth hthree
  rw [← hname, String.ofList_toList] at hfound
  exact hfound

theorem accessorResult?_eq_some_iff {source picked : ValueType} {name : String} :
    accessorResult? source name = some picked ↔ source.Accesses name picked := by
  constructor
  · intro h
    obtain ⟨rule, hmem, ⟨rfl, rfl⟩, rfl⟩ := exists_of_map_find? h
    exact AccessorRule.accesses_of_mem hmem
  · exact accessorResult?_of_accesses

/-- Conversions are between numeric scalars and vectors, and keep the dimension. -/
structure ValueType.Converts (source target : ValueType) : Prop where
  source_numeric : source ≠ .bool
  target_numeric : target ≠ .bool
  source_not_matrix : source.isMatrix = false
  target_not_matrix : target.isMatrix = false
  dim : source.dim = target.dim

namespace ValueType

theorem isConvertible_iff {ty : ValueType} : ty.isConvertible = true ↔ ty ≠ .bool ∧ ty.isMatrix = false := by
  cases ty <;> decide

theorem convertsTo_iff {source target : ValueType} : source.convertsTo target = true ↔ source.Converts target := by
  unfold convertsTo
  rw [Bool.and_eq_true, Bool.and_eq_true, isConvertible_iff, isConvertible_iff, decide_eq_true_eq]
  constructor
  · rintro ⟨⟨⟨hsource, hmatrix⟩, htarget, hmatrix'⟩, hdim⟩
    exact ⟨hsource, htarget, hmatrix, hmatrix', hdim⟩
  · intro h
    exact ⟨⟨⟨h.source_numeric, h.source_not_matrix⟩, h.target_numeric, h.target_not_matrix⟩, h.dim⟩

end ValueType

/-! ### What the checks find -/

namespace ValueType

variable {ty source target : ValueType} {name : String} {reason : Rejection}

theorem checkOneMinus_eq_ok {result : ValueType} :
    ty.checkOneMinus = .ok result ↔ oneMinusResult? ty = some result := by
  unfold checkOneMinus
  cases oneMinusResult? ty <;> simp

theorem checkOneMinus_eq_error (h : ty.checkOneMinus = .error reason) : reason = .operands .oneMinus [.typed ty] := by
  unfold checkOneMinus at h
  cases hresult : oneMinusResult? ty <;> simp_all

theorem checkAccess_eq_ok {result : ValueType} :
    ty.checkAccess name = .ok result ↔ accessorResult? ty name = some result := by
  unfold checkAccess
  cases accessorResult? ty name <;> simp

theorem checkAccess_eq_error (h : ty.checkAccess name = .error reason) : reason = .accessor ty name := by
  unfold checkAccess at h
  cases hresult : accessorResult? ty name <;> simp_all

theorem checkConversion_eq_ok : source.checkConversion target = .ok () ↔ source.convertsTo target = true := by
  unfold checkConversion
  split <;> simp_all

theorem checkConversion_eq_error (h : source.checkConversion target = .error reason) :
    reason = .conversion source target := by
  unfold checkConversion at h
  split at h <;> simp_all

end ValueType

namespace Operand

variable {g : Fin n} {kind : Kind} {y : Operand n}

theorem checkOwner_of_allOf (hy : AllOf g [y]) : y.checkOwner g = .ok () :=
  checkOwners_eq_ok.1 (checkOwners_eq_ok_iff_allOf.2 hy) y (List.mem_singleton_self y)

theorem allUnify_singleton : AllUnify kind [y] ↔ ∃ source, y.source? kind = some source := by
  rw [allUnify_iff, List.mapM_cons, List.mapM_nil]
  cases y.source? kind with
  | none => exact iff_of_false nofun nofun
  | some source => exact iff_of_true ⟨[source], rfl⟩ ⟨source, rfl⟩

end Operand

namespace Node

variable {op : BinaryOp} {x : Node n} {y : Operand n} {ty : ValueType}

/-- What can be assigned to a variable: an expression of its type, or, if it is a scalar, a literal that takes its
kind. -/
def Takes (x : Node n) (y : Operand n) : Prop :=
  y.fits x.ty = true ∧ Operand.AllUnify x.ty.kind [y]

theorem exists_checkBinary_eq_ok (hy : Operand.AllOf x.graph [y]) :
    (∃ source, checkBinary op x y = .ok (ty, source)) ↔
      op.Accepts x.ty y.type ty ∧ Operand.AllUnify x.ty.kind [y] := by
  rw [Operand.allUnify_singleton, ← BinaryOp.result?_eq_some_iff, ← BinaryOp.check_eq_ok]
  constructor
  · rintro ⟨source, h⟩
    obtain ⟨_, hty, hsource⟩ := checkBinary_eq_ok.1 h
    exact ⟨hty, source, hsource⟩
  · rintro ⟨hty, source, hsource⟩
    exact ⟨source, checkBinary_eq_ok.2 ⟨Operand.checkOwner_of_allOf hy, hty, hsource⟩⟩

/-- Operands of the graph are rejected for their types, also when it is a literal that does not fit. -/
theorem checkBinary_eq_error (hy : Operand.AllOf x.graph [y]) {reason : Rejection}
    (h : checkBinary op x y = .error reason) : reason = .operands (.binary op) [.typed x.ty, y.type] := by
  unfold checkBinary BinaryOp.check at h
  rw [Operand.checkOwner_of_allOf hy] at h
  cases hresult : op.result? x.ty y.type with
  | none =>
    rw [hresult] at h
    exact (Except.error.inj h).symm
  | some ty =>
    rw [hresult] at h
    cases hsource : y.source? x.ty.kind with
    | none =>
      simp only [hsource] at h
      exact (Except.error.inj h).symm
    | some source =>
      simp only [hsource] at h
      exact absurd h nofun

theorem exists_checkAssign_eq_ok (hy : Operand.AllOf x.graph [y]) :
    (∃ source, checkAssign x y = .ok source) ↔ x.isVariable = true ∧ x.Takes y := by
  unfold Takes
  rw [Operand.allUnify_singleton, y.fits_iff]
  constructor
  · rintro ⟨source, h⟩
    obtain ⟨hvariable, _, hfits, hsource⟩ := checkAssign_eq_ok.1 h
    exact ⟨hvariable, hfits, source, hsource⟩
  · rintro ⟨hvariable, hfits, source, hsource⟩
    exact ⟨source, checkAssign_eq_ok.2 ⟨hvariable, Operand.checkOwner_of_allOf hy, hfits, hsource⟩⟩

theorem checkAssign_of_not_variable (hx : x.isVariable = false) :
    checkAssign x y = .error (.assignment x.handle x.ty) := by
  unfold checkAssign
  rw [hx]
  rfl

/-- An operand of the graph that cannot be assigned to a variable is rejected for its type. -/
theorem checkAssign_eq_error (hx : x.isVariable = true) (hy : Operand.AllOf x.graph [y]) {reason : Rejection}
    (h : checkAssign x y = .error reason) : reason = .operands .assign [.typed x.ty, y.type] := by
  rw [checkAssign_eq hx, Operand.checkOwner_of_allOf hy] at h
  cases hfits : y.fits x.ty with
  | false =>
    simp only [hfits] at h
    exact (Except.error.inj h).symm
  | true =>
    cases hsource : y.source? x.ty.kind with
    | none =>
      simp only [hfits, hsource] at h
      exact (Except.error.inj h).symm
    | some source =>
      simp only [hfits, hsource] at h
      exact absurd h nofun

end Node

namespace Session

/-- A call makes an expression of a graph, of a type that a law gives; where the law gives none, the call is rejected
with an error. -/
structure Decides (s : Session n) (c : Call n) (g : Fin n) (law : ValueType → Prop) (e : Error) : Prop where
  accepted : ∀ ty, (∃ h, (s.perform c).1 = .ok (.node ⟨g, h, ty, false⟩)) ↔ law ty
  rejected : (∀ ty, ¬ law ty) → (s.perform c).1 = .error e

/-- Operators, accessors, conversions and assignments follow the rules of the language. -/
structure FollowsRules (s : Session n) : Prop where
  binary : ∀ (op : BinaryOp) (x : Node n) (y : Operand n), Operand.AllOf x.graph [y] →
    s.Decides (.binary op x y) x.graph
      (fun ty => op.Accepts x.ty y.type ty ∧ Operand.AllUnify x.ty.kind [y])
      (.typeMismatch (.binary op) [.typed x.ty, y.type])
  oneMinus : ∀ x : Node n, s.Decides (.oneMinus x) x.graph
    (fun ty => x.ty.isNumeric = true ∧ x.ty.isScalar = true ∧ ty = x.ty)
    (.typeMismatch .oneMinus [.typed x.ty])
  access : ∀ (x : Node n) (name : String), s.Decides (.access x name) x.graph (x.ty.Accesses name)
    (.undefinedAccessor x.ty name)
  cast : ∀ (x : Node n) (target : ValueType), s.Decides (.cast x target) x.graph
    (fun ty => x.ty.Converts target ∧ ty = target)
    (.shapeMismatch target [.typed x.ty])
  assign : ∀ (x : Node n) (y : Operand n), Operand.AllOf x.graph [y] →
    ((s.perform (.assign x y)).1 = .ok .done ↔ x.isVariable = true ∧ x.Takes y)
  assign_not_variable : ∀ (x : Node n) (y : Operand n), x.isVariable = false →
    (s.perform (.assign x y)).1 = .error (.notVariable x.ty)
  assign_mismatch : ∀ (x : Node n) (y : Operand n), x.isVariable = true → Operand.AllOf x.graph [y] →
    ¬ x.Takes y → (s.perform (.assign x y)).1 = .error (.typeMismatch .assign [.typed x.ty, y.type])

variable {s : Session n} {g : Fin n}

section

variable {α σ : Type} {call : Build α} {f : α → Reply n} {check : Except Rejection σ} {accepted : σ → α × Builder}

theorem reply_of_check_ok (hrun : call.run (s.builder g) = Build.checked (s.builder g) check accepted) {x : σ}
    (hcheck : check = .ok x) : (s.on g (call >>= fun a => pure (f a))).1 = .ok (f (accepted x).1) := by
  show ((call >>= fun a => pure (f a)).run (s.builder g)).1 = _
  rw [Build.run_bind, hrun, hcheck]
  rfl

theorem reply_of_check_error (hrun : call.run (s.builder g) = Build.checked (s.builder g) check accepted)
    {reason : Rejection} (hcheck : check = .error reason) :
    (s.on g (call >>= fun a => pure (f a))).1 = .error reason.error := by
  show ((call >>= fun a => pure (f a)).run (s.builder g)).1 = _
  rw [Build.run_bind, hrun, hcheck]
  rfl

end

/-- The law gives the type of the expression that was made. -/
theorem Decides.law_of_node {c : Call n} {law : ValueType → Prop} {e : Error} (h : s.Decides c g law e) {x : Node n}
    (hreply : (s.perform c).1 = .ok (.node x)) : x.graph = g ∧ law x.ty := by
  by_cases hlaw : ∃ ty, law ty
  · obtain ⟨ty, hty⟩ := hlaw
    obtain ⟨k, hk⟩ := (h.accepted ty).2 hty
    cases hreply.symm.trans hk
    exact ⟨rfl, hty⟩
  · have herror := h.rejected fun ty hty => hlaw ⟨ty, hty⟩
    exact absurd (hreply.symm.trans herror) nofun

/-- A call whose check follows a law is decided by it. -/
private theorem decides_of_checked {σ : Type} (type : σ → ValueType) {call : Build (Node n)}
    {check : Except Rejection σ} {accepted : σ → Node n × Builder} {c : Call n} {law : ValueType → Prop} {e : Error}
    (hperform : s.perform c = s.on g (call >>= fun x => pure (.node x)))
    (hrun : call.run (s.builder g) = Build.checked (s.builder g) check accepted)
    (hnode : ∀ a, ∃ b, (accepted a).1 = Node.nextIn b g (type a))
    (hlaw : ∀ ty, (∃ a, check = .ok a ∧ type a = ty) ↔ law ty)
    (herror : ∀ reason, check = .error reason → reason.error = e) : s.Decides c g law e := by
  cases hcheck : check with
  | error reason =>
    have hreply : (s.perform c).1 = .error reason.error := by
      rw [hperform]
      exact reply_of_check_error hrun hcheck
    have hnot : ∀ ty, ¬ law ty := by
      intro ty hty
      obtain ⟨a, ha, _⟩ := (hlaw ty).2 hty
      exact absurd (hcheck.symm.trans ha) nofun
    refine ⟨fun ty => iff_of_false ?_ (hnot ty), fun _ => ?_⟩
    · rintro ⟨h, hok⟩
      exact absurd (hreply.symm.trans hok) nofun
    · rw [hreply, herror reason hcheck]
  | ok a =>
    obtain ⟨b, hb⟩ := hnode a
    have hreply : (s.perform c).1 = .ok (.node (Node.nextIn b g (type a))) := by
      rw [hperform, ← hb]
      exact reply_of_check_ok hrun hcheck
    refine ⟨fun ty => ?_, fun hnot => absurd ((hlaw (type a)).1 ⟨a, hcheck, rfl⟩) (hnot _)⟩
    rw [hreply, ← hlaw]
    constructor
    · rintro ⟨h, hok⟩
      cases hok
      exact ⟨a, hcheck, rfl⟩
    · rintro ⟨a', ha', rfl⟩
      cases Except.ok.inj (hcheck.symm.trans ha')
      exact ⟨_, rfl⟩

theorem decides_binary (op : BinaryOp) {x : Node n} {y : Operand n} (hy : Operand.AllOf x.graph [y]) :
    s.Decides (.binary op x y) x.graph (fun ty => op.Accepts x.ty y.type ty ∧ Operand.AllUnify x.ty.kind [y])
      (.typeMismatch (.binary op) [.typed x.ty, y.type]) := by
  refine decides_of_checked Prod.fst rfl (Node.run_binary _ x y op) (fun _ => ⟨_, rfl⟩) ?_ ?_
  · intro ty
    rw [← Node.exists_checkBinary_eq_ok hy]
    constructor
    · rintro ⟨⟨ty, source⟩, h, rfl⟩
      exact ⟨source, h⟩
    · rintro ⟨source, h⟩
      exact ⟨(ty, source), h, rfl⟩
  · intro reason h
    rw [Node.checkBinary_eq_error hy h]
    rfl

theorem decides_oneMinus (x : Node n) :
    s.Decides (.oneMinus x) x.graph (fun ty => x.ty.isNumeric = true ∧ x.ty.isScalar = true ∧ ty = x.ty)
      (.typeMismatch .oneMinus [.typed x.ty]) := by
  refine decides_of_checked id rfl (Node.run_oneMinus _ x) (fun _ => ⟨_, rfl⟩) ?_ ?_
  · intro ty
    rw [← oneMinusResult?_eq_some_iff, ← ValueType.checkOneMinus_eq_ok]
    exact exists_eq_right
  · intro reason h
    rw [ValueType.checkOneMinus_eq_error h]
    rfl

theorem decides_access (x : Node n) (name : String) :
    s.Decides (.access x name) x.graph (x.ty.Accesses name) (.undefinedAccessor x.ty name) := by
  refine decides_of_checked id rfl (Node.run_access _ x name) (fun _ => ⟨_, rfl⟩) ?_ ?_
  · intro ty
    rw [← accessorResult?_eq_some_iff, ← ValueType.checkAccess_eq_ok]
    exact exists_eq_right
  · intro reason h
    rw [ValueType.checkAccess_eq_error h]
    rfl

theorem decides_cast (x : Node n) (target : ValueType) :
    s.Decides (.cast x target) x.graph (fun ty => x.ty.Converts target ∧ ty = target)
      (.shapeMismatch target [.typed x.ty]) := by
  refine decides_of_checked (fun _ => target) rfl (Node.run_cast _ x target) (fun _ => ⟨_, rfl⟩) ?_ ?_
  · intro ty
    rw [← ValueType.convertsTo_iff, ← ValueType.checkConversion_eq_ok]
    exact ⟨fun ⟨_, h, hty⟩ => ⟨h, hty.symm⟩, fun ⟨h, hty⟩ => ⟨(), h, hty.symm⟩⟩
  · intro reason h
    rw [ValueType.checkConversion_eq_error h]
    rfl

/-- In any session, an operator, accessor, conversion or assignment is accepted exactly where the rules of the language
allow it, with the type that they give, and rejected with its error everywhere else. -/
theorem follows_rules (s : Session n) : s.FollowsRules where
  binary op _ _ hy := decides_binary op hy
  oneMinus := decides_oneMinus
  access := decides_access
  cast := decides_cast
  assign x y hy := by
    rw [← Node.exists_checkAssign_eq_ok hy]
    cases hcheck : Node.checkAssign x y with
    | ok source => exact iff_of_true (reply_of_check_ok (Node.run_assign _ x y) hcheck) ⟨source, rfl⟩
    | error reason =>
      have hreply : (s.perform (.assign x y)).1 = .error reason.error :=
        reply_of_check_error (Node.run_assign _ x y) hcheck
      rw [hreply]
      exact iff_of_false nofun nofun
  assign_not_variable x y hx :=
    reply_of_check_error (Node.run_assign _ x y) (Node.checkAssign_of_not_variable hx)
  assign_mismatch x y hx hy hnot := by
    cases hcheck : Node.checkAssign x y with
    | ok source => exact absurd ((Node.exists_checkAssign_eq_ok hy).1 ⟨source, hcheck⟩).2 hnot
    | error reason =>
      rw [Node.checkAssign_eq_error hx hy hcheck] at hcheck
      exact reply_of_check_error (Node.run_assign _ x y) hcheck

end Session

end ShaderExpr
