import ShaderExpr.Proofs.Making
import ShaderExpr.Proofs.Messages

/-!
# The journal accounts for the record

What a construction call reports can be told from what it appended (`Session.logs_perform`): of each vertex, its
trace and then the announcement of an input or a variable, and of each rebind, which comes last, a notice and a trace.
A call that is rejected reports its reason and nothing else.

The accounts of two steps are that of both (`Builder.Accounts.trans`), so calls that record several vertices with checks
between them, which are those that build composites, account for all of them (`Builder.Makes.accounts`).

A line that reports a vertex or a rebind begins with a handle, which can be told from the line (`Notice.lines`).
-/

namespace ShaderExpr

variable {n : Nat} {b b' b'' : Builder}

namespace Notice

/-- What is reported of vertices that are recorded one after another. -/
def ofVertices (next : Nat) : List Vertex → List Notice
  | [] => []
  | v :: vs => recorded ⟨next⟩ v :: ((v.announcement? ⟨next⟩).toList ++ ofVertices (next + 1) vs)

def ofRebind (r : Rebind) : List Notice :=
  [assigned r.var r.expr, rebound r.var r.expr]

theorem ofVertices_append (next : Nat) (vertices vertices' : List Vertex) :
    ofVertices next (vertices ++ vertices') =
      ofVertices next vertices ++ ofVertices (next + vertices.length) vertices' := by
  induction vertices generalizing next with
  | nil => rfl
  | cons v vs ih =>
    show recorded ⟨next⟩ v :: (_ ++ ofVertices (next + 1) (vs ++ vertices')) = _ :: (_ ++ _) ++ _
    rw [ih, List.length_cons, Nat.add_right_comm, List.cons_append, List.append_assoc]
    rfl

theorem level_of_announcement? {h : Handle} {v : Vertex} {notice : Notice} (hv : v.announcement? h = some notice) :
    notice.level = .debug := by
  cases v <;> cases hv <;> rfl

/-- The traces of vertices are one for each of them, in order. -/
theorem trace_ofVertices (next : Nat) (vertices : List Vertex) :
    (ofVertices next vertices).filter (·.level = .trace) =
      (vertices.zipIdx next).map fun entry => recorded ⟨entry.2⟩ entry.1 := by
  induction vertices generalizing next with
  | nil => rfl
  | cons v vs ih =>
    have hannounced : ((v.announcement? ⟨next⟩).toList.filter (·.level = .trace)) = [] := by
      rw [List.filter_eq_nil_iff]
      intro notice hnotice
      rw [level_of_announcement? (Option.mem_toList.1 hnotice)]
      decide
    show (recorded ⟨next⟩ v :: _).filter _ = recorded ⟨next⟩ v :: _
    rw [List.filter_cons_of_pos rfl, List.filter_append, hannounced, ih]
    rfl

/-- The other notices of vertices are their announcements. -/
theorem debug_ofVertices (next : Nat) (vertices : List Vertex) :
    (ofVertices next vertices).filter (·.level = .debug) =
      (vertices.zipIdx next).filterMap fun entry => entry.1.announcement? ⟨entry.2⟩ := by
  induction vertices generalizing next with
  | nil => rfl
  | cons v vs ih =>
    have hannounced :
        (v.announcement? ⟨next⟩).toList.filter (·.level = .debug) = (v.announcement? ⟨next⟩).toList := by
      rw [List.filter_eq_self]
      intro notice hnotice
      rw [level_of_announcement? (Option.mem_toList.1 hnotice)]
      decide
    show (_ ++ ofVertices (next + 1) vs).filter _ = _
    rw [List.filter_append, hannounced, ih, List.zipIdx_cons, List.filterMap_cons]
    dsimp only
    cases v.announcement? ⟨next⟩ <;> rfl

theorem trace_ofRebinds (rebinds : List Rebind) :
    (rebinds.flatMap ofRebind).filter (·.level = .trace) = rebinds.map fun r => rebound r.var r.expr := by
  induction rebinds with
  | nil => rfl
  | cons r rs ih =>
    show rebound r.var r.expr :: (rs.flatMap ofRebind).filter _ = _
    rw [ih]
    rfl

theorem debug_ofRebinds (rebinds : List Rebind) :
    (rebinds.flatMap ofRebind).filter (·.level = .debug) = rebinds.map fun r => assigned r.var r.expr := by
  induction rebinds with
  | nil => rfl
  | cons r rs ih =>
    show assigned r.var r.expr :: (rs.flatMap ofRebind).filter _ = _
    rw [ih]
    rfl

end Notice

/-- Vertices and rebinds are appended, in this order, and reported. -/
structure Builder.Accounts (b : Builder) (vertices : List Vertex) (rebinds : List Rebind) (b' : Builder) : Prop where
  graph : ∃ labels, b.graph.Adds vertices rebinds labels b'.graph
  journal : b'.journal.toList =
    b.journal.toList ++ (Notice.ofVertices b.graph.size vertices ++ rebinds.flatMap Notice.ofRebind)

namespace Builder.Accounts

variable {vertices vertices' : List Vertex} {rebinds : List Rebind}

theorem refl (b : Builder) : b.Accounts [] [] b :=
  ⟨⟨[], .refl b.graph⟩, (List.append_nil _).symm⟩

theorem trans (h : b.Accounts vertices [] b') (h' : b'.Accounts vertices' rebinds b'') :
    b.Accounts (vertices ++ vertices') rebinds b'' := by
  obtain ⟨labels, hadds⟩ := h.graph
  obtain ⟨labels', hadds'⟩ := h'.graph
  refine ⟨⟨labels' ++ labels, hadds.trans hadds'⟩, ?_⟩
  rw [h'.journal, h.journal, hadds.size_eq, Notice.ofVertices_append, List.flatMap_nil, List.append_nil,
    List.append_assoc, List.append_assoc]

/-- An operation or an accessor is recorded. -/
theorem recorded (b : Builder) {v : Vertex} (hv : v.announcement? b.graph.next = none) :
    b.Accounts [v] [] (b.recorded v) := by
  have hnone : v.announcement? ⟨b.graph.size⟩ = none := hv
  refine ⟨⟨[], .push b.graph v⟩, ?_⟩
  show (b.journal.push (.recorded b.graph.next v)).toList = _
  unfold Notice.ofVertices
  rw [Array.toList_push, hnone]
  rfl

/-- An input or a variable is recorded and announced. -/
theorem announced (b : Builder) {v : Vertex} {notice : Notice} (hv : v.announcement? b.graph.next = some notice) :
    b.Accounts [v] [] ((b.recorded v).noted notice) := by
  refine ⟨⟨[], .push b.graph v⟩, ?_⟩
  have hnotice : v.announcement? ⟨b.graph.size⟩ = some notice := hv
  show ((b.journal.push (.recorded b.graph.next v)).push notice).toList = _
  unfold Notice.ofVertices
  rw [Array.toList_push, Array.toList_push, hnotice, List.append_assoc]
  rfl

theorem labelled (b : Builder) (h : Handle) (name : String) : b.Accounts [] [] (b.labelled h name) :=
  ⟨⟨[(h, name)], .label b.graph h name⟩, (List.append_nil _).symm⟩

theorem shared (b : Builder) (c : Composite) (h : Handle) : b.Accounts [] [] (b.shared c h) :=
  ⟨⟨[], .refl b.graph⟩, (List.append_nil _).symm⟩

theorem rebound (b : Builder) (var expr : Handle) :
    b.Accounts [] [⟨var, expr, b.graph.size⟩] ((b.noted (.assigned var expr)).rebound var expr) := by
  refine ⟨⟨[], .rebind b.graph var expr⟩, ?_⟩
  show ((b.journal.push (.assigned var expr)).push (.rebound var expr)).toList = _
  rw [Array.toList_push, Array.toList_push, List.append_assoc]
  rfl

end Builder.Accounts

/-- Every step accounts for the vertex that it records. -/
theorem Builder.Make.accounts (h : b.Make b') : ∃ vertices, b.Accounts vertices [] b' := by
  cases h with
  | recorded hv => exact ⟨_, .recorded b hv⟩
  | announced hv => exact ⟨_, .announced b hv⟩
  | kept hc h => exact ⟨_, .shared b _ h⟩
  | named => exact ⟨_, ((Builder.Accounts.announced b rfl).trans (.labelled _ _ _)).trans (.shared _ _ _)⟩

theorem Builder.Makes.accounts (h : b.Makes b') : ∃ vertices, b.Accounts vertices [] b' := by
  induction h with
  | refl => exact ⟨[], .refl b⟩
  | tail _ hstep ih =>
    obtain ⟨vertices, hmade⟩ := ih
    obtain ⟨vertices', hnew⟩ := hstep.accounts
    exact ⟨vertices ++ vertices', hmade.trans hnew⟩

/-- A call is accepted and accounts for what it appends, or it is rejected and reports the reason only. -/
inductive Builder.Reports {α : Type} (b : Builder) : Except Error α × Builder → Prop
  | accepted {vertices : List Vertex} {rebinds : List Rebind} {after : Builder} (a : α)
    (h : b.Accounts vertices rebinds after) : b.Reports (.ok a, after)
  | rejected (reason : Rejection) : b.Reports (.error reason.error, b.noted (.rejected reason))

namespace Builder.Reports

variable {α β σ : Type}

theorem map {call : Build α} {f : α → β} (h : b.Reports (call.run b)) :
    b.Reports ((call >>= fun a => pure (f a)).run b) := by
  rw [Build.run_bind]
  generalize call.run b = outcome at h
  cases h with
  | accepted a haccounts => exact .accepted (f a) haccounts
  | rejected reason => exact .rejected reason

theorem of_makes {draft : Draft α} (h : b.Makes (draft.run b).2) : b.Reports ((liftM draft : Build α).run b) := by
  obtain ⟨vertices, haccounts⟩ := h.accounts
  exact .accepted _ haccounts

/-- A call that is never rejected reports what it makes. -/
theorem of_returns {call : Build α} {post : α → Builder → Prop} (hcall : call.Returns b post) (hmakes : call.Makes) :
    b.Reports (call.run b) := by
  obtain ⟨a, b', hrun, _⟩ := hcall
  obtain ⟨vertices, haccounts⟩ := (hmakes b a b' hrun).accounts
  rw [hrun]
  exact .accepted a haccounts

/-- A call that a check decides reports what it makes. -/
theorem of_checked {call : Build α} {check : Except Rejection σ} {accepted : σ → α × Builder}
    (hrun : call.run b = Build.checked b check accepted) (hmakes : call.Makes) : b.Reports (call.run b) := by
  cases check with
  | ok x =>
    obtain ⟨vertices, haccounts⟩ := (hmakes b _ _ hrun).accounts
    rw [hrun]
    exact .accepted _ haccounts
  | error reason =>
    rw [hrun]
    exact .rejected reason

theorem of_ok {a : α} (h : b.Reports (.ok a, b')) : ∃ vertices rebinds, b.Accounts vertices rebinds b' := by
  cases h with
  | accepted _ haccounts => exact ⟨_, _, haccounts⟩

theorem of_error {e : Error} (h : b.Reports ((.error e : Except Error α), b')) :
    ∃ reason : Rejection, reason.error = e ∧ b' = b.noted (.rejected reason) := by
  cases h with
  | rejected reason => exact ⟨reason, rfl, rfl⟩

end Builder.Reports

/-- An assignment records its literal, if it has one, before it rebinds the variable. -/
theorem Node.reports_assign (x : Node n) (y : Operand n) (b : Builder) : b.Reports ((x.assign y).run b) := by
  rw [run_assign]
  cases checkAssign x y with
  | ok source =>
    obtain ⟨vertices, haccounts⟩ := (source.makes_recordedIn b).accounts
    exact .accepted () (haccounts.trans (.rebound _ x.handle _))
  | error reason => exact .rejected reason

/-- The graph that a construction call works on. -/
def Call.constructs? : Call n → Option (Fin n)
  | uniform g _ | constant g _ | attr g _ _ | colorTexture g _ | dataTexture g _ _ | composite g _ | construct g _ _ =>
    some g
  | withUv t _ => some t.texel.graph
  | binary _ x _ | oneMinus x | access x _ | cast x _ | toVariable x | assign x _ | label x _ => some x.graph
  | labelVariable v _ => some v.node.graph
  | setUniform .. | evaluate .. | request .. | resourceId => none

namespace Session

variable {s : Session n} {g : Fin n}

/-- If only one graph has another journal, then what was reported was reported about this graph. -/
theorem reportedSince_eq {s' : Session n} (hs : ∀ g', g' ≠ g → (s'.builder g').journal = (s.builder g').journal) :
    s'.reportedSince s = (s'.builder g).journal.toList.drop (s.builder g).journal.size := by
  obtain ⟨before, after, hlist⟩ := List.append_of_mem (List.mem_finRange g)
  have hnodup := List.nodup_finRange n
  rw [hlist, List.nodup_append] at hnodup
  obtain ⟨_, hafter, hdisjoint⟩ := hnodup
  have hnone : ∀ gs : List (Fin n), g ∉ gs → (gs.flatMap fun g' =>
      (s'.builder g').journal.toList.drop (s.builder g').journal.size) = [] := by
    intro gs hg
    rw [List.flatMap_eq_nil_iff]
    rintro g' hg'
    rw [hs g' fun heq => hg (heq ▸ hg')]
    exact List.drop_length
  unfold reportedSince
  rw [hlist, List.flatMap_append, List.flatMap_cons, hnone before fun hg => hdisjoint g hg g List.mem_cons_self rfl,
    hnone after (List.nodup_cons.1 hafter).1, List.append_nil, List.nil_append]

/-- A call on one graph reports what its builder reports, and other graphs are left alone. -/
private theorem reports_on {call : Build (Reply n)} (h : (s.builder g).Reports (call.run (s.builder g))) :
    (∀ g', g' ≠ g → (s.on g call).2.builder g' = s.builder g') ∧
      (s.builder g).Reports ((s.on g call).1, (s.on g call).2.builder g) := by
  refine ⟨fun g' hg => builder_on_ne (Ne.symm hg) call, ?_⟩
  rw [builder_on_self]
  exact h

/-- Whatever the session is, a construction call is accepted and accounts for what it appends to its graph, or it is
rejected and reports the reason only. -/
theorem reports_perform {c : Call n} (hc : c.constructs? = some g) :
    (∀ g', g' ≠ g → (s.perform c).2.builder g' = s.builder g') ∧
      (s.builder g).Reports ((s.perform c).1, (s.perform c).2.builder g) := by
  cases c with
  | uniform g' value =>
    cases hc
    exact reports_on (.map (.of_makes (.single (.announced rfl))))
  | constant g' value =>
    cases hc
    exact reports_on (.map (.of_makes (.single (.recorded rfl))))
  | attr g' ty name =>
    cases hc
    exact reports_on (.map (.of_makes (.single (.announced rfl))))
  -- the identity of a texture is not reported by itself
  | colorTexture g' label =>
    cases hc
    exact reports_on (s := s.allocate.2) (.map (.of_makes (Texture.makes_declare _ _ _ _)))
  | dataTexture g' format label =>
    cases hc
    exact reports_on (s := s.allocate.2) (.map (.of_makes (Texture.makes_declare _ _ _ _)))
  | withUv t uv =>
    cases hc
    exact reports_on (.map (.of_checked (Texture.run_withUv _ t uv) (t.makes_withUv uv)))
  | composite g' d =>
    cases hc
    exact reports_on (.map (.of_returns (d.returns_kept _ _) (d.makes_build _)))
  | binary op x y =>
    cases hc
    exact reports_on (.map (.of_checked (Node.run_binary _ x y op) (x.makes_binary op y)))
  | oneMinus x =>
    cases hc
    exact reports_on (.map (.of_checked (Node.run_oneMinus _ x) x.makes_oneMinus))
  | access x name =>
    cases hc
    exact reports_on (.map (.of_checked (Node.run_access _ x name) (x.makes_access name)))
  | cast x target =>
    cases hc
    exact reports_on (.map (.of_checked (Node.run_cast _ x target) (x.makes_cast target)))
  | construct g' target args =>
    cases hc
    exact reports_on (.map (.of_checked (Node.run_construct _ _ target args) (Node.makes_construct _ target args)))
  | toVariable x =>
    cases hc
    exact reports_on (.map (.of_makes (.single (.announced rfl))))
  | assign x y =>
    cases hc
    exact reports_on (.map (x.reports_assign y _))
  | label x name =>
    cases hc
    exact reports_on (.map (.accepted _ (.labelled _ x.handle name)))
  | labelVariable v name =>
    cases hc
    exact reports_on (.map (.accepted _ (.labelled _ v.node.handle name)))
  | setUniform | evaluate | request | resourceId => exact absurd hc nofun

end Session

/-! ### The log -/

/-- What is reported of vertices and rebinds that are appended, as a whole and level by level. -/
structure Notice.AccountFor (next : Nat) (vertices : List Vertex) (rebinds : List Rebind) (reported : List Notice) :
    Prop where
  /-- The trace of a vertex comes right before its announcement, and rebinds are reported last. -/
  order : reported = ofVertices next vertices ++ rebinds.flatMap ofRebind
  traces : reported.filter (·.level = .trace) =
    ((vertices.zipIdx next).map fun entry => recorded ⟨entry.2⟩ entry.1) ++ rebinds.map fun r => rebound r.var r.expr
  debugs : reported.filter (·.level = .debug) =
    ((vertices.zipIdx next).filterMap fun entry => entry.1.announcement? ⟨entry.2⟩) ++
      rebinds.map fun r => assigned r.var r.expr

theorem Notice.accountFor (next : Nat) (vertices : List Vertex) (rebinds : List Rebind) :
    AccountFor next vertices rebinds (ofVertices next vertices ++ rebinds.flatMap ofRebind) where
  order := rfl
  traces := by rw [List.filter_append, trace_ofVertices, trace_ofRebinds]
  debugs := by rw [List.filter_append, debug_ofVertices, debug_ofRebinds]

/-- The lines of the log. -/
structure Notice.Lines : Prop where
  handle (h : Handle) : h.text = "%" ++ toString h.index
  recorded (h : Handle) (v : Vertex) : (recorded h v).message = h.text ++ " = " ++ v.inspect
  /-- A line tells which vertex it is about. -/
  recorded_handle {h h' : Handle} {v v' : Vertex} :
    (Notice.recorded h v).message = (Notice.recorded h' v').message → h = h' ∧ v.inspect = v'.inspect
  announced {h : Handle} {v : Vertex} {notice : Notice} : v.announcement? h = some notice →
    ∃ description, notice.message = h.text ++ " is " ++ description
  announced_handle {h h' : Handle} {v v' : Vertex} {notice notice' : Notice} : v.announcement? h = some notice →
    v'.announcement? h' = some notice' → notice.message = notice'.message → h = h'
  /-- Operations and accessors are the vertices that are not announced. -/
  silent (h : Handle) (v : Vertex) : v.announcement? h = none ↔
    (∃ op ty operands, v = .op op ty operands) ∨ ∃ source name ty, v = .component source name ty
  assigned (var expr : Handle) : (assigned var expr).message = var.text ++ " <- " ++ expr.text
  rebound (var expr : Handle) : (rebound var expr).message = var.text ++ " <- " ++ expr.text
  /-- The line of a binding tells both ends of it. -/
  binding_handles {var var' expr expr' : Handle} :
    var.text ++ " <- " ++ expr.text = var'.text ++ " <- " ++ expr'.text → var = var' ∧ expr = expr'
  rejected (reason : Rejection) : (rejected reason).level = .debug

private theorem Notice.exists_description {h : Handle} {v : Vertex} {notice : Notice}
    (hv : v.announcement? h = some notice) : ∃ description, notice.message = h.text ++ " is " ++ description := by
  have ha : " is a " = " is " ++ "a " := by decide
  have hthe : " is the " = " is " ++ "the " := by decide
  cases v with
  | op | component => exact nomatch hv
  | uniform | attr | texture | var =>
    cases hv
    unfold message
    dsimp only
    simp only [ha, hthe, String.append_assoc]
    exact ⟨_, rfl⟩

theorem Notice.lines : Notice.Lines where
  handle _ := rfl
  recorded _ _ := rfl
  recorded_handle h := Handle.eq_of_text_append rfl h
  announced hv := exists_description hv
  announced_handle hv hv' h := by
    obtain ⟨description, hdescription⟩ := exists_description hv
    obtain ⟨description', hdescription'⟩ := exists_description hv'
    rw [hdescription, hdescription'] at h
    exact (Handle.eq_of_text_append rfl h).1
  silent h v := by
    cases v with
    | op op ty operands => exact iff_of_true rfl (.inl ⟨op, ty, operands, rfl⟩)
    | component source name ty => exact iff_of_true rfl (.inr ⟨source, name, ty, rfl⟩)
    | uniform | attr | texture | var =>
      refine iff_of_false nofun ?_
      rintro (⟨_, _, _, h⟩ | ⟨_, _, _, h⟩) <;> cases h
  assigned _ _ := rfl
  rebound _ _ := rfl
  binding_handles h := by
    obtain ⟨hvar, hexpr⟩ := Handle.eq_of_text_append rfl h
    exact ⟨hvar, Handle.text_injective hexpr⟩
  rejected _ := rfl

namespace Session

/-- A construction call is reported as what it appended, or as its rejection. -/
structure Logs (s : Session n) (c : Call n) : Prop where
  others {g : Fin n} : c.constructs? = some g → ∀ g', g' ≠ g → (s.perform c).2.builder g' = s.builder g'
  accepted {g : Fin n} {r : Reply n} : c.constructs? = some g → (s.perform c).1 = .ok r →
    ∃ vertices rebinds labels,
      (s.builder g).graph.Adds vertices rebinds labels ((s.perform c).2.builder g).graph ∧
        Notice.AccountFor (s.builder g).graph.size vertices rebinds ((s.perform c).2.reportedSince s)
  rejected {g : Fin n} {e : Error} : c.constructs? = some g → (s.perform c).1 = .error e →
    ((s.perform c).2.builder g).graph = (s.builder g).graph ∧
      ∃ reason : Rejection, reason.error = e ∧ (s.perform c).2.reportedSince s = [.rejected reason]

/-- In every session, the log tells what construction calls do. -/
theorem logs_perform (s : Session n) (c : Call n) : s.Logs c where
  others hc := (reports_perform hc).1
  accepted {g r} hc hr := by
    obtain ⟨hothers, hreports⟩ := reports_perform (s := s) hc
    have hreported := reportedSince_eq fun g' hg => congrArg Builder.journal (hothers g' hg)
    rw [hr] at hreports
    obtain ⟨vertices, rebinds, haccounts⟩ := hreports.of_ok
    obtain ⟨labels, hadds⟩ := haccounts.graph
    refine ⟨vertices, rebinds, labels, hadds, ?_⟩
    rw [hreported, haccounts.journal, ← Array.length_toList, List.drop_left]
    exact Notice.accountFor _ vertices rebinds
  rejected {g e} hc he := by
    obtain ⟨hothers, hreports⟩ := reports_perform (s := s) hc
    have hreported := reportedSince_eq fun g' hg => congrArg Builder.journal (hothers g' hg)
    rw [he] at hreports
    obtain ⟨reason, hreason, hbuilder⟩ := hreports.of_error
    rw [hbuilder] at hreported ⊢
    refine ⟨rfl, reason, hreason, ?_⟩
    rw [hreported]
    show ((s.builder g).journal.push (.rejected reason)).toList.drop _ = _
    rw [Array.toList_push, ← Array.length_toList, List.drop_left]

/-- The log is a faithful account of construction, in every session. -/
theorem log_faithful : Notice.Lines ∧ ∀ (n : Nat) (s : Session n) (c : Call n), s.Logs c :=
  ⟨Notice.lines, fun _ => logs_perform⟩

end Session

end ShaderExpr
