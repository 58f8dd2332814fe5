import ShaderExpr.Session

/-!
# What calls do to a builder

A call with operands is decided by its check, which looks at nodes only.  One equation for each such call tells its
answer and the builder that it leaves (`Build.checked`): if the check rejects the call, the builder gets a notice
and nothing else; otherwise what the call records is known from the check.

`Build.Returns` says that a call is accepted, with a postcondition.
-/

namespace ShaderExpr

variable {n : Nat}

namespace Builder

def noted (b : Builder) (notice : Notice) : Builder :=
  { b with journal := b.journal.push notice }

/-- A vertex recorded, which is traced. -/
def recorded (b : Builder) (v : Vertex) : Builder :=
  { b.noted (.recorded b.graph.next v) with graph := b.graph.push v }

/-- A variable bound to another expression, which is traced. -/
def rebound (b : Builder) (var expr : Handle) : Builder :=
  { b.noted (.rebound var expr) with graph := b.graph.rebind var expr }

def labelled (b : Builder) (h : Handle) (name : String) : Builder :=
  { b with graph := b.graph.label h name }

/-- The handle of a composite kept for later calls. -/
def shared (b : Builder) (c : Composite) (h : Handle) : Builder :=
  { b with composites := fun d => if d = c then some h else b.composites d }

end Builder

namespace Build

variable {α β σ : Type} (b : Builder)

/-- The answer and the builder after a call that a check decides. -/
def checked (check : Except Rejection σ) (accepted : σ → α × Builder) : Except Error α × Builder :=
  match check with
  | .ok s => (.ok (accepted s).1, (accepted s).2)
  | .error reason => (.error reason.error, b.noted (.rejected reason))

theorem run_bind (call : Build α) (f : α → Build β) :
    (call >>= f).run b =
      match call.run b with
      | (.ok a, b') => (f a).run b'
      | (.error e, b') => (.error e, b') := by
  show (match call.run b with | (outcome, b') => ExceptT.bindCont f outcome b') = _
  rcases call.run b with ⟨_ | _, b'⟩ <;> rfl

theorem run_lift (draft : Draft α) :
    (liftM draft : Build α).run b = (.ok (draft.run b).1, (draft.run b).2) := rfl

theorem run_accept (check : Except Rejection α) :
    (accept check).run b =
      match check with
      | .ok a => (.ok a, b)
      | .error reason => (.error reason.error, b.noted (.rejected reason)) := by
  cases check <;> rfl

theorem run_accept_bind (check : Except Rejection σ) (draft : σ → Draft α) :
    (accept check >>= fun s => liftM (draft s)).run b = checked b check fun s => (draft s).run b := by
  rw [run_bind, run_accept]
  cases check <;> rfl

/-- A call is accepted: its answer and the builder it leaves have a property. -/
def Returns (call : Build α) (b : Builder) (post : α → Builder → Prop) : Prop :=
  ∃ a b', call.run b = (.ok a, b') ∧ post a b'

namespace Returns

variable {b}

theorem bind {call : Build α} {f : α → Build β} {mid : α → Builder → Prop} {post : β → Builder → Prop}
    (hcall : Returns call b mid) (hf : ∀ a b', mid a b' → Returns (f a) b' post) :
    Returns (call >>= f) b post := by
  obtain ⟨a, b', hrun, hmid⟩ := hcall
  obtain ⟨x, b'', hrun', hpost⟩ := hf a b' hmid
  refine ⟨x, b'', ?_, hpost⟩
  rw [run_bind, hrun]
  exact hrun'

theorem lift {draft : Draft α} {post : α → Builder → Prop} (h : post (draft.run b).1 (draft.run b).2) :
    Returns (liftM draft) b post :=
  ⟨_, _, rfl, h⟩

theorem pure {a : α} {post : α → Builder → Prop} (h : post a b) : Returns (Pure.pure a) b post :=
  ⟨a, b, rfl, h⟩

theorem get_bind {f : Builder → Build α} {post : α → Builder → Prop} (h : Returns (f b) b post) :
    Returns (get >>= f) b post :=
  h

theorem mono {call : Build α} {post post' : α → Builder → Prop} (h : Returns call b post)
    (hpost : ∀ a b', post a b' → post' a b') : Returns call b post' := by
  obtain ⟨a, b', hrun, ha⟩ := h
  exact ⟨a, b', hrun, hpost a b' ha⟩

end Returns

theorem run_setUniform (h : Handle) (value : Value) :
    (setUniform h value).run b =
      match b.graph.setUniform h value with
      | .ok g => (.ok (), { b.noted (.uniformSet h value) with graph := g })
      | .error (.typeMismatch op types) =>
        (.error (.typeMismatch op types), b.noted (.rejected (.operands op types)))
      | .error e => (.error e, b) := by
  show (match b.graph.setUniform h value with
    | .ok g => do
      Draft.note (.uniformSet h value)
      modify fun b => { b with graph := g }
    | .error (.typeMismatch op types) => accept (.error (.operands op types))
    | .error e => throw e : Build Unit).run b = _
  rcases b.graph.setUniform h value with e | g
  · cases e <;> rfl
  · rfl

theorem run_evaluate (h : Handle) (bindings : Bindings) :
    (evaluate h bindings).run b = (b.graph.evaluate bindings h, b) := by
  show (evaluate.liftExcept (b.graph.evaluate bindings h)).run b = _
  cases b.graph.evaluate bindings h <;> rfl

end Build

namespace Source

/-- The vertex that an accepted operand has in a builder that is about to record it. -/
def handleIn (b : Builder) : Source → Handle
  | vertex h => h
  | constant _ => b.graph.next

/-- A builder in which an accepted operand is recorded. -/
def recordedIn (b : Builder) : Source → Builder
  | vertex _ => b
  | constant value => b.recorded (.constant value)

theorem run_record (source : Source) (b : Builder) :
    source.record.run b = (source.handleIn b, source.recordedIn b) := by
  cases source <;> rfl

def handlesIn (b : Builder) : List Source → List Handle
  | [] => []
  | source :: sources => source.handleIn b :: handlesIn (source.recordedIn b) sources

/-- A builder in which accepted operands are recorded in order. -/
def allRecordedIn (b : Builder) : List Source → Builder
  | [] => b
  | source :: sources => allRecordedIn (source.recordedIn b) sources

theorem run_recordAll (sources : List Source) (b : Builder) :
    (recordAll sources).run b = (handlesIn b sources, allRecordedIn b sources) := by
  induction sources generalizing b with
  | nil => rfl
  | cons source sources ih =>
    show (let (h, b') := source.record.run b
      let (hs, b'') := (recordAll sources).run b'
      (h :: hs, b'')) = _
    rw [run_record]
    dsimp only
    rw [ih]
    rfl

end Source

namespace Node

variable (b : Builder) (x : Node n) (y : Operand n) (g : Fin n)

/-- The node of the vertex that a builder is about to record. -/
def nextIn (b : Builder) (g : Fin n) (ty : ValueType) : Node n :=
  ⟨g, b.graph.next, ty, false⟩

theorem run_binary (op : BinaryOp) :
    (x.binary op y).run b = Build.checked b (checkBinary op x y) fun (ty, source) =>
      (nextIn (source.recordedIn b) x.graph ty,
        (source.recordedIn b).recorded (.op (.binary op) ty [x.handle, source.handleIn b])) := by
  unfold binary
  rw [Build.run_bind, Build.run_accept]
  rcases checkBinary op x y with reason | ⟨ty, source⟩
  · rfl
  · cases source <;> rfl

theorem run_oneMinus :
    x.oneMinus.run b = Build.checked b x.ty.checkOneMinus fun ty =>
      (nextIn b x.graph ty, b.recorded (.op .oneMinus ty [x.handle])) :=
  Build.run_accept_bind b x.ty.checkOneMinus fun ty => x.derive ty (.op .oneMinus ty [x.handle])

theorem run_access (name : String) :
    (x.access name).run b = Build.checked b (x.ty.checkAccess name) fun ty =>
      (nextIn b x.graph ty, b.recorded (.component x.handle name ty)) :=
  Build.run_accept_bind b (x.ty.checkAccess name) fun ty => x.derive ty (.component x.handle name ty)

theorem run_cast (target : ValueType) :
    (x.cast target).run b = Build.checked b (x.ty.checkConversion target) fun _ =>
      (nextIn b x.graph target, b.recorded (.op (.cast target) target [x.handle])) :=
  Build.run_accept_bind b (x.ty.checkConversion target) fun _ =>
    x.derive target (.op (.cast target) target [x.handle])

theorem run_assign :
    (x.assign y).run b = Build.checked b (checkAssign x y) fun source =>
      ((), ((source.recordedIn b).noted (.assigned x.handle (source.handleIn b))).rebound x.handle
        (source.handleIn b)) := by
  unfold assign
  rw [Build.run_bind, Build.run_accept]
  rcases checkAssign x y with reason | source
  · rfl
  · cases source <;> rfl

theorem run_construct (target : ValueType) (args : List (Operand n)) :
    (construct g target args).run b = Build.checked b (checkConstruct g target args) fun sources =>
      (nextIn (Source.allRecordedIn b sources) g target,
        (Source.allRecordedIn b sources).recorded
          (.op (.construct target) target (Source.handlesIn b sources))) := by
  unfold construct
  rw [Build.run_bind, Build.run_accept]
  rcases checkConstruct g target args with reason | sources
  · rfl
  · dsimp only
    rw [Build.run_bind, Build.run_lift, Source.run_recordAll]
    rfl

theorem run_evaluate (bindings : Bindings) :
    (x.evaluate g bindings).run b =
      match (Operand.node x).checkOwner g with
      | .ok () => (b.graph.evaluate bindings x.handle, b)
      | .error reason => (.error reason.error, b.noted (.rejected reason)) := by
  unfold evaluate
  rw [Build.run_bind, Build.run_accept]
  cases (Operand.node x).checkOwner g with
  | error reason => rfl
  | ok _ => exact Build.run_evaluate b x.handle bindings

end Node

namespace Composite

variable (b : Builder) (c : Composite)

theorem run_shared (build : Draft Handle) :
    (c.shared build).run b =
      match b.composites c with
      | some h => (h, b)
      | none => ((build.run b).1, (build.run b).2.shared c (build.run b).1) := by
  show (match b.composites c with
    | some h => pure h
    | none => do
      let h ← build
      modify fun b => b.shared c h
      return h : Draft Handle).run b = _
  cases b.composites c <;> rfl

variable {b} in
/-- A composite is found again, or it is built and kept. -/
theorem returns_shared {build : Build Handle} {post : Handle → Builder → Prop}
    (hfound : ∀ h, b.composites c = some h → post h b)
    (hbuild : b.composites c = none → Build.Returns build b fun h b' => post h (b'.shared c h)) :
    Build.Returns (c.shared build) b post := by
  show Build.Returns (match b.composites c with
    | some h => pure h
    | none => do
      let h ← build
      modify fun b => b.shared c h
      return h : Build Handle) b post
  cases hc : b.composites c with
  | some h => exact .pure (hfound h hc)
  | none => exact (hbuild hc).bind fun h b' hpost => ⟨h, b'.shared c h, rfl, hpost⟩

end Composite

namespace Texture

theorem run_withUv (b : Builder) (t : Texture n) (uv : Node n) :
    (t.withUv uv).run b = Build.checked b (t.checkUv uv) fun _ =>
      (read t.texel.graph t.resource uv t.info).run b :=
  Build.run_accept_bind b (t.checkUv uv) fun _ => read t.texel.graph t.resource uv t.info

end Texture

end ShaderExpr
