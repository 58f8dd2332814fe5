import ShaderExpr.Proofs.Runs

/-!
# Literals as constants

A literal operand is recorded as a constant, just before the vertex or the rebind that uses it.
`Session.spellOut` records these constants by calls of their own, and puts their nodes in the place of the literals.

* A node that stands for an operand (`Operand.StandsFor`) is checked as the operand is: operators list a literal
  exactly where they list a scalar of the receiver's kind, constructors count it as one component, and a variable
  that literals are assigned to is a scalar.
* So a call whose literals fit is accepted or rejected as the call that is spelled out, with the same reply and the
  same session after it (`Session.exists_spellOut`, `Session.perform_eq_spelledOut`).
-/

namespace ShaderExpr

variable {n : Nat}

/-- Whether an operand is a node, or a literal of a kind. -/
def Operand.unifies (kind : Kind) : Operand n → Bool
  | node _ => true
  | literal x => (x.unify? kind).isSome

/-- Whether all literals among the operands of a call fit the kind that is asked for. -/
def Call.unifies : Call n → Bool
  | binary _ x y | assign x y => y.unifies x.ty.kind
  | construct _ target args => args.all (Operand.unifies target.kind)
  | _ => true

namespace Session

/-- The node that an operand stands for; a literal is recorded as a constant of a kind. -/
def spell (s : Session n) (g : Fin n) (kind : Kind) : Operand n → Option (Node n × Session n)
  | .node x => some (x, s)
  | .literal x =>
    (x.unify? kind).bind fun value =>
      match s.perform (.constant g value) with
      | (.ok (.node x), s') => some (x, s')
      | _ => none

/-- The nodes that operands stand for; literals are recorded in order. -/
def spellAll (s : Session n) (g : Fin n) (kind : Kind) : List (Operand n) → Option (List (Node n) × Session n)
  | [] => some ([], s)
  | y :: ys =>
    (s.spell g kind y).bind fun (x, s') =>
      (s'.spellAll g kind ys).map fun (xs, s'') => (x :: xs, s'')

/-- A call with nodes for the literals among its operands, and the session in which these are recorded. -/
def spellOut (s : Session n) : Call n → Option (Call n × Session n)
  | .binary op x y => (s.spell x.graph x.ty.kind y).map fun (z, s') => (.binary op x (.node z), s')
  | .assign x y => (s.spell x.graph x.ty.kind y).map fun (z, s') => (.assign x (.node z), s')
  | .construct g target args =>
    (s.spellAll g target.kind args).map fun (zs, s') => (.construct g target (zs.map .node), s')
  | c => some (c, s)

end Session

namespace Operand

variable {g : Fin n} {kind : Kind}

/-- A node stands for an accepted operand in a builder that is about to record it. -/
structure StandsFor (g : Fin n) (kind : Kind) (b : Builder) (y : Operand n) (source : Source) (x : Node n) :
    Prop where
  ty : x.ty = y.recordedType kind
  handle : x.handle = source.handleIn b
  owner : (node x).checkOwner g = .ok () ↔ y.checkOwner g = .ok ()

theorem unifies_iff {y : Operand n} : y.unifies kind = true ↔ ∃ source, y.source? kind = some source := by
  rw [← Option.isSome_iff_exists]
  cases y with
  | node x => exact iff_of_true rfl rfl
  | literal x =>
    show (x.unify? kind).isSome = true ↔ ((x.unify? kind).map Source.constant).isSome = true
    rw [Option.isSome_map]

theorem all_unifies_iff {ys : List (Operand n)} :
    ys.all (unifies kind) = true ↔ ∃ sources, ys.mapM (source? kind) = some sources := by
  rw [List.all_eq_true]
  constructor
  · intro h
    obtain ⟨sources, hsources, _⟩ := exists_mapM_eq_some fun y hy => unifies_iff.1 (h y hy)
    exact ⟨sources, hsources⟩
  · rintro ⟨sources, hsources⟩
    rw [mapM_eq_some] at hsources
    induction hsources with
    | nil => exact nofun
    | cons hsource _ ih => exact List.forall_mem_cons.2 ⟨unifies_iff.2 ⟨_, hsource⟩, ih⟩

theorem checkOwners_cons_eq_ok {y : Operand n} {ys : List (Operand n)} :
    checkOwners g (y :: ys) = .ok () ↔ y.checkOwner g = .ok () ∧ checkOwners g ys = .ok () := by
  rw [checkOwners_eq_ok, checkOwners_eq_ok, List.forall_mem_cons]

end Operand

namespace Session

variable {s : Session n} {g : Fin n} {kind : Kind}

/-- A session with another builder for a graph. -/
def put (s : Session n) (g : Fin n) (b : Builder) : Session n :=
  { s with builders := s.builders.set g b g.isLt }

theorem put_builder (s : Session n) (g : Fin n) : s.put g (s.builder g) = s := by
  show { s with builders := s.builders.set g.val s.builders[g.val] } = s
  rw [Vector.set_getElem_self]

theorem builder_put (s : Session n) (g : Fin n) (b : Builder) : (s.put g b).builder g = b :=
  Vector.getElem_set_self _

theorem put_put (s : Session n) (g : Fin n) (b b' : Builder) : (s.put g b).put g b' = s.put g b' := by
  unfold put
  rw [Vector.set_set]

theorem spell_eq_some {y : Operand n} {source : Source} (hsource : y.source? kind = some source) :
    ∃ x, s.spell g kind y = some (x, s.put g (source.recordedIn (s.builder g))) ∧
      y.StandsFor g kind (s.builder g) source x := by
  cases y with
  | node x =>
    cases Option.some.inj hsource
    refine ⟨x, ?_, rfl, rfl, Iff.rfl⟩
    show some (x, s) = some (x, s.put g (s.builder g))
    rw [put_builder]
  | literal x =>
    obtain ⟨value, hvalue, rfl⟩ := Option.map_eq_some_iff.1 hsource
    refine ⟨Node.nextIn (s.builder g) g value.ty, ?_, x.ty_of_unify? hvalue, rfl, ?_⟩
    · unfold spell
      dsimp only
      rw [hvalue]
      rfl
    · exact iff_of_true (if_pos rfl) rfl

theorem spellAll_eq_some {ys : List (Operand n)} {sources : List Source}
    (hsources : ys.mapM (Operand.source? kind) = some sources) :
    ∃ xs, s.spellAll g kind ys = some (xs, s.put g (Source.allRecordedIn (s.builder g) sources)) ∧
      xs.map Node.ty = ys.map (Operand.recordedType kind) ∧
      xs.map Node.handle = Source.handlesIn (s.builder g) sources ∧
      (Operand.checkOwners g (xs.map .node) = .ok () ↔ Operand.checkOwners g ys = .ok ()) := by
  rw [mapM_eq_some] at hsources
  induction hsources generalizing s with
  | nil =>
    refine ⟨[], ?_, rfl, rfl, Iff.rfl⟩
    show some ([], s) = some ([], s.put g (s.builder g))
    rw [put_builder]
  | @cons y source ys rest hsource _ ih =>
    obtain ⟨x, hx, hstands⟩ := spell_eq_some (s := s) (g := g) hsource
    obtain ⟨xs, hxs, htypes, hhandles, howners⟩ := ih (s := s.put g (source.recordedIn (s.builder g)))
    rw [builder_put] at hxs hhandles
    rw [put_put] at hxs
    refine ⟨x :: xs, ?_, ?_, ?_, ?_⟩
    · show ((s.spell g kind y).bind fun (x, s') => (s'.spellAll g kind ys).map fun (xs, s'') => (x :: xs, s'')) = _
      rw [hx]
      dsimp only [Option.bind_some]
      rw [hxs]
      rfl
    · rw [List.map_cons, List.map_cons, hstands.ty, htypes]
    · rw [List.map_cons, hstands.handle, hhandles]
      rfl
    · rw [List.map_cons, Operand.checkOwners_cons_eq_ok, Operand.checkOwners_cons_eq_ok, hstands.owner, howners]

end Session

/-! ### Calls that are spelled out -/

namespace Build

variable {α β σ τ : Type} {b b' : Builder}

/-- Two calls are both rejected, or both accepted with the same answer and the same builder after them. -/
def Agree (outcome outcome' : Except Error α × Builder) : Prop :=
  ∀ a c, outcome = (.ok a, c) ↔ outcome' = (.ok a, c)

theorem exists_of_checked {check : Except Rejection σ} {accepted : σ → α × Builder} {a : α} {c : Builder}
    (h : checked b check accepted = (.ok a, c)) : ∃ x, check = .ok x ∧ accepted x = (a, c) := by
  cases check with
  | ok x =>
    cases h
    exact ⟨x, rfl, rfl⟩
  | error reason => exact absurd h nofun

theorem Agree.checked {check : Except Rejection σ} {check' : Except Rejection τ} {accepted : σ → α × Builder}
    {accepted' : τ → α × Builder} {f : σ → τ}
    (hcheck : ∀ x, check = .ok x → check' = .ok (f x) ∧ accepted' (f x) = accepted x)
    (hcheck' : ∀ y, check' = .ok y → ∃ x, check = .ok x) :
    Agree (Build.checked b check accepted) (Build.checked b' check' accepted') := by
  intro a c
  constructor
  · intro h
    obtain ⟨x, hx, haccepted⟩ := exists_of_checked h
    obtain ⟨hfx, hsame⟩ := hcheck x hx
    rw [hfx]
    show (Except.ok (accepted' (f x)).1, (accepted' (f x)).2) = _
    rw [hsame, haccepted]
  · intro h
    obtain ⟨y, hy, haccepted⟩ := exists_of_checked h
    obtain ⟨x, hx⟩ := hcheck' y hy
    obtain ⟨hfx, hsame⟩ := hcheck x hx
    cases Except.ok.inj (hy.symm.trans hfx)
    rw [hx]
    show (Except.ok (accepted x).1, (accepted x).2) = _
    rw [← hsame, haccepted]

theorem exists_of_map {call : Build α} {f : α → β} {r : β} {c : Builder}
    (h : (call >>= fun a => pure (f a)).run b = (.ok r, c)) : ∃ a, call.run b = (.ok a, c) ∧ f a = r := by
  rw [run_bind] at h
  rcases hrun : call.run b with ⟨e | a, c'⟩ <;> rw [hrun] at h
  · exact absurd h nofun
  · cases h
    exact ⟨a, rfl, rfl⟩

theorem Agree.map {call call' : Build α} {f : α → β} (h : Agree (call.run b) (call'.run b')) :
    Agree ((call >>= fun a => pure (f a)).run b) ((call' >>= fun a => pure (f a)).run b') := by
  intro r c
  constructor
  · intro hr
    obtain ⟨a, ha, rfl⟩ := exists_of_map hr
    rw [run_bind, (h a c).1 ha]
    rfl
  · intro hr
    obtain ⟨a, ha, rfl⟩ := exists_of_map hr
    rw [run_bind, (h a c).2 ha]
    rfl

end Build

namespace Source

theorem allRecordedIn_vertices (b : Builder) (hs : List Handle) : allRecordedIn b (hs.map .vertex) = b := by
  induction hs with
  | nil => rfl
  | cons h hs ih => exact ih

theorem handlesIn_vertices (b : Builder) (hs : List Handle) : handlesIn b (hs.map .vertex) = hs := by
  induction hs with
  | nil => rfl
  | cons h hs ih => exact congrArg (h :: ·) ih

end Source

namespace Node

variable {b : Builder} {x z : Node n} {y : Operand n} {source : Source} {g : Fin n}

/-- An operator has the same result for an operand as for the type that it is recorded with. -/
theorem check_recordedType {op : BinaryOp} {ty : ValueType} :
    op.check x.ty (.typed (y.recordedType x.ty.kind)) = .ok ty ↔ op.check x.ty y.type = .ok ty := by
  cases y with
  | node z => exact Iff.rfl
  | literal z =>
    rw [BinaryOp.check_eq_ok, BinaryOp.check_eq_ok]
    show op.result? x.ty (.typed x.ty.scalarType) = _ ↔ op.result? x.ty .literal = _
    rw [op.result?_scalarType]

theorem agree_binary (op : BinaryOp) (hsource : y.source? x.ty.kind = some source)
    (hz : y.StandsFor x.graph x.ty.kind b source z) :
    Build.Agree ((x.binary op y).run b) ((x.binary op (.node z)).run (source.recordedIn b)) := by
  have htype : (Operand.node z).type = .typed (y.recordedType x.ty.kind) := congrArg _ hz.ty
  rw [run_binary, run_binary]
  refine .checked (f := fun result => (result.1, .vertex (result.2.handleIn b))) ?_ ?_
  · rintro ⟨ty, source'⟩ hcheck
    obtain ⟨howner, hty, hsource'⟩ := checkBinary_eq_ok.1 hcheck
    cases Option.some.inj (hsource.symm.trans hsource')
    refine ⟨checkBinary_eq_ok.2 ⟨hz.owner.2 howner, ?_, ?_⟩, rfl⟩
    · rw [htype]
      exact check_recordedType.2 hty
    · exact congrArg (fun h => some (Source.vertex h)) hz.handle
  · rintro ⟨ty, source'⟩ hcheck
    obtain ⟨howner, hty, _⟩ := checkBinary_eq_ok.1 hcheck
    rw [htype] at hty
    exact ⟨_, checkBinary_eq_ok.2 ⟨hz.owner.1 howner, check_recordedType.1 hty, hsource⟩⟩

theorem agree_assign (hsource : y.source? x.ty.kind = some source)
    (hz : y.StandsFor x.graph x.ty.kind b source z) :
    Build.Agree ((x.assign y).run b) ((x.assign (.node z)).run (source.recordedIn b)) := by
  rw [run_assign, run_assign]
  refine .checked (f := fun source => .vertex (source.handleIn b)) ?_ ?_
  · intro source' hcheck
    obtain ⟨hvariable, howner, hty, hsource'⟩ := checkAssign_eq_ok.1 hcheck
    cases Option.some.inj (hsource.symm.trans hsource')
    refine ⟨checkAssign_eq_ok.2 ⟨hvariable, hz.owner.2 howner, hz.ty.trans hty, ?_⟩, rfl⟩
    exact congrArg (fun h => some (Source.vertex h)) hz.handle
  · intro source' hcheck
    obtain ⟨hvariable, howner, hty, _⟩ := checkAssign_eq_ok.1 hcheck
    exact ⟨_, checkAssign_eq_ok.2 ⟨hvariable, hz.owner.1 howner, hz.ty.symm.trans hty, hsource⟩⟩

theorem agree_construct (target : ValueType) {args : List (Operand n)} {sources : List Source} {zs : List (Node n)}
    (hsources : args.mapM (Operand.source? target.kind) = some sources)
    (htypes : zs.map Node.ty = args.map (Operand.recordedType target.kind))
    (hhandles : zs.map Node.handle = Source.handlesIn b sources)
    (howners : Operand.checkOwners g (zs.map .node) = .ok () ↔ Operand.checkOwners g args = .ok ()) :
    Build.Agree ((construct g target args).run b)
      ((construct g target (zs.map .node)).run (Source.allRecordedIn b sources)) := by
  have htypes' : (zs.map Operand.node).map Operand.type =
      (args.map (Operand.recordedType target.kind)).map .typed := by
    rw [← htypes, List.map_map, List.map_map]
    rfl
  have hsources' : (zs.map Operand.node).mapM (Operand.source? target.kind) =
      some ((Source.handlesIn b sources).map .vertex) := by
    rw [← hhandles, List.mapM_map, List.map_map]
    exact List.mapM_pure
  rw [run_construct, run_construct]
  refine .checked (f := fun sources => (Source.handlesIn b sources).map .vertex) ?_ ?_
  · intro sources' hcheck
    obtain ⟨howner, hshape, hsame⟩ := checkConstruct_eq_ok.1 hcheck
    cases Option.some.inj (hsources.symm.trans hsame)
    refine ⟨checkConstruct_eq_ok.2 ⟨howners.2 howner, ?_, hsources'⟩, ?_⟩
    · rw [htypes']
      exact Operand.checkArguments_recordedType.2 hshape
    · rw [Source.allRecordedIn_vertices, Source.handlesIn_vertices]
  · intro sources' hcheck
    obtain ⟨howner, hshape, _⟩ := checkConstruct_eq_ok.1 hcheck
    rw [htypes'] at hshape
    exact ⟨_, checkConstruct_eq_ok.2 ⟨howners.1 howner, Operand.checkArguments_recordedType.1 hshape, hsources⟩⟩

end Node

namespace Session

variable {s : Session n} {g : Fin n}

theorem on_eq_ok {call : Build (Reply n)} {r : Reply n} {s' : Session n} :
    s.on g call = (.ok r, s') ↔ ∃ b, call.run (s.builder g) = (.ok r, b) ∧ s.put g b = s' := by
  have hon : s.on g call = ((call.run (s.builder g)).1, s.put g (call.run (s.builder g)).2) := rfl
  rw [hon]
  constructor
  · intro h
    obtain ⟨hreply, hput⟩ := Prod.mk.inj h
    exact ⟨_, Prod.ext hreply rfl, hput⟩
  · rintro ⟨b, hrun, rfl⟩
    rw [hrun]

theorem on_agree {call call' : Build (Reply n)} {b : Builder}
    (h : Build.Agree (call.run (s.builder g)) (call'.run b)) (r : Reply n) (s' : Session n) :
    s.on g call = (.ok r, s') ↔ (s.put g b).on g call' = (.ok r, s') := by
  rw [on_eq_ok, on_eq_ok, builder_put]
  refine exists_congr fun c => ?_
  rw [put_put, h r c]

/-- An accepted call has been checked. -/
theorem exists_of_on_checked {α σ : Type} {call : Build α} {f : α → Reply n} {check : Except Rejection σ}
    {accepted : σ → α × Builder} {r : Reply n} {s' : Session n}
    (hrun : call.run (s.builder g) = Build.checked (s.builder g) check accepted)
    (h : s.on g (call >>= fun a => pure (f a)) = (.ok r, s')) : ∃ x, check = .ok x := by
  obtain ⟨b, hcall, _⟩ := on_eq_ok.1 h
  obtain ⟨a, ha, _⟩ := Build.exists_of_map hcall
  obtain ⟨x, hx, _⟩ := Build.exists_of_checked (hrun.symm.trans ha)
  exact ⟨x, hx⟩

/-- Literals that do not fit are rejected. -/
theorem unifies_of_perform {c : Call n} {r : Reply n} {s' : Session n} (hok : s.perform c = (.ok r, s')) :
    c.unifies = true := by
  cases c with
  | binary op x y =>
    obtain ⟨⟨ty, source⟩, hcheck⟩ := exists_of_on_checked (Node.run_binary _ x y op) hok
    exact Operand.unifies_iff.2 ⟨source, (Node.checkBinary_eq_ok.1 hcheck).2.2⟩
  | assign x y =>
    obtain ⟨source, hcheck⟩ := exists_of_on_checked (Node.run_assign _ x y) hok
    exact Operand.unifies_iff.2 ⟨source, (Node.checkAssign_eq_ok.1 hcheck).2.2.2⟩
  | construct g target args =>
    obtain ⟨sources, hcheck⟩ := exists_of_on_checked (Node.run_construct _ g target args) hok
    exact Operand.all_unifies_iff.2 ⟨sources, (Node.checkConstruct_eq_ok.1 hcheck).2.2⟩
  | _ => rfl

/-- A call whose literals fit can be spelled out, and both calls are rejected, or accepted with the same reply and
the same session after them. -/
theorem exists_spellOut (s : Session n) {c : Call n} (hunifies : c.unifies = true) :
    ∃ d t, s.spellOut c = some (d, t) ∧ ∀ r s', s.perform c = (.ok r, s') ↔ t.perform d = (.ok r, s') := by
  cases c with
  | binary op x y =>
    obtain ⟨source, hsource⟩ := Operand.unifies_iff.1 hunifies
    obtain ⟨z, hz, hstands⟩ := spell_eq_some (s := s) (g := x.graph) hsource
    have hspelled := congrArg (Option.map fun (z, t) => (Call.binary op x (.node z), t)) hz
    exact ⟨_, _, hspelled, on_agree (.map (Node.agree_binary op hsource hstands))⟩
  | assign x y =>
    obtain ⟨source, hsource⟩ := Operand.unifies_iff.1 hunifies
    obtain ⟨z, hz, hstands⟩ := spell_eq_some (s := s) (g := x.graph) hsource
    have hspelled := congrArg (Option.map fun (z, t) => (Call.assign x (.node z), t)) hz
    exact ⟨_, _, hspelled, on_agree (.map (Node.agree_assign hsource hstands))⟩
  | construct g target args =>
    obtain ⟨sources, hsources⟩ := Operand.all_unifies_iff.1 hunifies
    obtain ⟨zs, hzs, htypes, hhandles, howners⟩ := spellAll_eq_some (s := s) (g := g) hsources
    have hspelled := congrArg (Option.map fun (zs, t) => (Call.construct g target (zs.map .node), t)) hzs
    exact ⟨_, _, hspelled, on_agree (.map (Node.agree_construct target hsources htypes hhandles howners))⟩
  | _ => exact ⟨_, s, rfl, fun _ _ => Iff.rfl⟩

/-- In any session, an accepted call has the reply that it has, and leaves the session that it leaves, if its
literals are recorded as constants first, in their order, and their nodes are given in their place.  If all of its
literals fit, it is accepted exactly if the call with these nodes is. -/
theorem perform_eq_spelledOut (s : Session n) (c : Call n) :
    (∀ r s', s.perform c = (.ok r, s') → ∃ d t, s.spellOut c = some (d, t) ∧ t.perform d = (.ok r, s')) ∧
      (c.unifies = true → ∃ d t, s.spellOut c = some (d, t) ∧
        ((∃ r, (s.perform c).1 = .ok r) ↔ ∃ r, (t.perform d).1 = .ok r)) := by
  refine ⟨?_, ?_⟩
  · intro r s' hok
    obtain ⟨d, t, hspelled, hsame⟩ := s.exists_spellOut (unifies_of_perform hok)
    exact ⟨d, t, hspelled, (hsame r s').1 hok⟩
  · intro hunifies
    obtain ⟨d, t, hspelled, hsame⟩ := s.exists_spellOut hunifies
    refine ⟨d, t, hspelled, exists_congr fun r => ⟨?_, ?_⟩⟩
    · intro hok
      exact congrArg Prod.fst ((hsame r _).1 (Prod.ext hok rfl))
    · intro hok
      exact congrArg Prod.fst ((hsame r _).2 (Prod.ext hok rfl))

end Session

end ShaderExpr
