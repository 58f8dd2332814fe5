import ShaderExpr.Proofs.Effects
import ShaderExpr.Proofs.Runs

/-!
# Traces of a session

The identities of textures come from a counter that all graphs of a session share.  `Session.Trace` follows the typed
calls of a session with their outcomes, also those of rejected calls, so that the identities can be told in the order in
which they were issued: they count from one on (`Session.Trace.counts`), and no two calls were given the same
(`Session.Trace.event_unique`).
-/

namespace ShaderExpr

variable {n : Nat}

/-- A call and its outcome. -/
structure Event (n : Nat) where
  call : Call n
  outcome : Except Error (Reply n)

/-- A call takes an identity. -/
def Call.allocates : Call n → Bool
  | colorTexture .. | dataTexture .. | resourceId => true
  | _ => false

def Reply.id? : Reply n → Option ResourceId
  | texture t => some t.info.id
  | resource id => some id
  | _ => none

theorem Call.id_of_declares {c : Call n} {id : ResourceId} {g : Fin n} {info : TextureInfo}
    (h : c.declares? id = some (g, info)) : id = info.id := by
  cases c with
  | colorTexture | dataTexture =>
    cases h
    rfl
  | _ => exact absurd h nofun

namespace Event

def reply? (e : Event n) : Option (Reply n) :=
  e.outcome.toOption

theorem reply?_eq_some {e : Event n} {r : Reply n} : e.reply? = some r ↔ e.outcome = .ok r := by
  unfold reply?
  cases e.outcome with
  | ok r' => exact ⟨fun h => congrArg _ (Option.some.inj h), fun h => congrArg _ (Except.ok.inj h)⟩
  | error reason => exact iff_of_false nofun nofun

/-- The identity that a call was given. -/
def issued? (e : Event n) : Option ResourceId :=
  if e.call.allocates then e.reply?.bind Reply.id? else none

/-- Two calls were not given the same identity. -/
def Distinct (e e' : Event n) : Prop :=
  ∀ id, e.issued? = some id → ¬ e'.issued? = some id

instance : Std.Symm (Distinct (n := n)) :=
  ⟨fun _ _ h id hid' hid => h id hid hid'⟩

/-- A texture was declared, with an identity that it was given. -/
def Declares (e : Event n) (t : Texture n) : Prop :=
  e.call.declares? t.info.id = some (t.texel.graph, t.info) ∧ e.outcome = .ok (.texture t)

theorem Declares.issued?_eq {e : Event n} {t : Texture n} (h : e.Declares t) : e.issued? = some t.info.id := by
  obtain ⟨hcall, houtcome⟩ := h
  have hallocates : e.call.allocates = true := by
    cases hc : e.call with
    | colorTexture | dataTexture => rfl
    | _ =>
      rw [hc] at hcall
      exact absurd hcall nofun
  unfold issued? reply?
  rw [hallocates, houtcome]
  rfl

end Event

namespace Session

/-- The sessions that typed calls lead to, with the calls and their outcomes, newest first. -/
inductive Trace : Session n → List (Event n) → Prop where
  | start (configs : Vector Config n) : Trace (ofConfigs configs) []
  | call {s : Session n} {events : List (Event n)} (hs : Trace s events) (c : Call n)
    (hc : c.GivenFrom (events.filterMap Event.reply?)) : Trace (s.perform c).2 (⟨c, (s.perform c).1⟩ :: events)

/-- The identities that were issued, newest first. -/
def issued (events : List (Event n)) : List ResourceId :=
  events.filterMap Event.issued?

variable {s : Session n} {events : List (Event n)} {c : Call n} {e : Event n}

theorem Trace.reachable (hs : s.Trace events) : s.Reachable (events.filterMap Event.reply?) := by
  induction hs with
  | start configs => exact .start configs
  | @call s events _ c hc ih =>
    have hheld : (⟨c, (s.perform c).1⟩ :: events).filterMap Event.reply? =
        (s.perform c).1.toOption.toList ++ events.filterMap Event.reply? := by
      rw [List.filterMap_cons]
      unfold Event.reply?
      cases (s.perform c).1 <;> rfl
    rw [hheld]
    exact ih.call c hc

theorem nextResource_perform (s : Session n) (c : Call n) :
    (s.perform c).2.nextResource = if c.allocates then s.nextResource + 1 else s.nextResource := by
  cases c <;> rfl

theorem issued?_perform (s : Session n) (c : Call n) :
    (⟨c, (s.perform c).1⟩ : Event n).issued? = if c.allocates then some ⟨s.nextResource⟩ else none := by
  cases c <;> rfl

/-- The identities that were issued count from one on. -/
structure Counts (s : Session n) (ids : List ResourceId) : Prop where
  next : s.nextResource = ids.length + 1
  increasing : ids.Pairwise fun later earlier => earlier.number < later.number
  bounded : ∀ id ∈ ids, 0 < id.number ∧ id.number ≤ ids.length

theorem Trace.counts (hs : s.Trace events) : s.Counts (issued events) := by
  induction hs with
  | start configs => exact ⟨rfl, .nil, List.forall_mem_nil _⟩
  | @call s events _ c _ ih =>
    have hnext := nextResource_perform s c
    have hissued : issued (⟨c, (s.perform c).1⟩ :: events) =
        (if c.allocates then [⟨s.nextResource⟩] else []) ++ issued events := by
      unfold issued
      rw [List.filterMap_cons, issued?_perform]
      cases c.allocates <;> rfl
    rw [hissued]
    cases hc : c.allocates with
    | false =>
      rw [hc] at hnext
      exact ⟨hnext.trans ih.next, ih.increasing, ih.bounded⟩
    | true =>
      rw [hc] at hnext
      have hlength := ih.next
      refine ⟨?_, List.pairwise_cons.2 ⟨?_, ih.increasing⟩, List.forall_mem_cons.2 ⟨⟨?_, ?_⟩, ?_⟩⟩
      · show _ = (issued events).length + 1 + 1
        rw [hnext, if_pos rfl, hlength]
      · intro id hid
        show id.number < s.nextResource
        have := ih.bounded id hid
        omega
      · show 0 < s.nextResource
        omega
      · show s.nextResource ≤ (issued events).length + 1
        omega
      · intro id hid
        show 0 < id.number ∧ id.number ≤ (issued events).length + 1
        have := ih.bounded id hid
        omega

/-- No identity is issued twice. -/
theorem Trace.event_unique {e' : Event n} {id : ResourceId} (hs : s.Trace events) (he : e ∈ events) (he' : e' ∈ events)
    (hid : e.issued? = some id) (hid' : e'.issued? = some id) : e = e' := by
  have hpairwise := List.pairwise_filterMap.1 hs.counts.increasing
  have hdistinct : events.Pairwise Event.Distinct := by
    refine hpairwise.imp ?_
    intro e e' hlt id hid hid'
    exact absurd (hlt id hid id hid') (Nat.lt_irrefl _)
  by_contra hne
  exact hdistinct.forall he he' hne id hid hid'

end Session

end ShaderExpr
