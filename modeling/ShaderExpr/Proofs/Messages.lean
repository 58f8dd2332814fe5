import Mathlib
import ShaderExpr.Error

/-!
# Messages tell errors apart

Different errors have different messages (`Error.message_injective`), although names and reasons stand in them as they
are.  The opening words tell most kinds of error apart (`Error.opening_eq_of_message_eq`).  Within a kind, the parts are
found again:

* types, operators and handles have names without blanks, commas and backticks, so the first such character after a
  name ends it, and the last one before a name begins it (`Text.eq_of_append_first`, `Text.eq_of_append_last`);
* for that reason the names of operands determine the operands, their number and their order
  (`OperandType.names_injective`).
-/

namespace ShaderExpr

namespace Text

private theorem split_first {c : Char} {xs ys rs ss : List Char} (hx : c ∉ xs) (hy : c ∉ ys)
    (h : xs ++ c :: rs = ys ++ c :: ss) : xs = ys ∧ rs = ss := by
  induction xs generalizing ys with
  | nil =>
    cases ys with
    | nil => exact ⟨rfl, (List.cons.inj h).2⟩
    | cons y ys => exact absurd ((List.cons.inj h).1 ▸ List.mem_cons_self) hy
  | cons x xs ih =>
    cases ys with
    | nil => exact absurd ((List.cons.inj h).1 ▸ List.mem_cons_self) hx
    | cons y ys =>
      obtain ⟨rfl, hrest⟩ := List.cons.inj h
      obtain ⟨rfl, hrs⟩ := ih (List.not_mem_of_not_mem_cons hx) (List.not_mem_of_not_mem_cons hy) hrest
      exact ⟨rfl, hrs⟩

private theorem split_last {c : Char} {xs ys rs ss : List Char} (hr : c ∉ rs) (hs : c ∉ ss)
    (h : xs ++ c :: rs = ys ++ c :: ss) : xs = ys ∧ rs = ss := by
  have hreverse : rs.reverse ++ c :: xs.reverse = ss.reverse ++ c :: ys.reverse := by
    simpa using congrArg List.reverse h
  obtain ⟨hrs, hxs⟩ := split_first (by simpa using hr) (by simpa using hs) hreverse
  exact ⟨List.reverse_injective hxs, List.reverse_injective hrs⟩

/-- Texts with the same words in the middle have the same parts, if these words begin with a character that is not
found before them. -/
theorem eq_of_append_first {c : Char} {a b words s t : String} (hc : words.toList.head? = some c)
    (ha : c ∉ a.toList) (hb : c ∉ b.toList) (h : a ++ words ++ s = b ++ words ++ t) : a = b ∧ s = t := by
  obtain ⟨rest, hwords⟩ := List.head?_eq_some_iff.1 hc
  have htext : a.toList ++ c :: (rest ++ s.toList) = b.toList ++ c :: (rest ++ t.toList) := by
    simpa [hwords] using congrArg String.toList h
  obtain ⟨hab, hst⟩ := split_first ha hb htext
  exact ⟨String.toList_inj.1 hab, String.toList_inj.1 (List.append_cancel_left hst)⟩

/-- Texts with the same words in the middle have the same parts, if these words end with a character that is not found
after them. -/
theorem eq_of_append_last {c : Char} {a b words s t : String} (hc : words.toList.getLast? = some c)
    (hs : c ∉ s.toList) (ht : c ∉ t.toList) (h : a ++ words ++ s = b ++ words ++ t) : a = b ∧ s = t := by
  obtain ⟨rest, hwords⟩ := List.getLast?_eq_some_iff.1 hc
  have htext : (a.toList ++ rest) ++ c :: s.toList = (b.toList ++ rest) ++ c :: t.toList := by
    simpa [hwords] using congrArg String.toList h
  obtain ⟨hab, hst⟩ := split_last hs ht htext
  exact ⟨String.toList_inj.1 (List.append_cancel_right hab), String.toList_inj.1 hst⟩

/-- A text begins with certain words. -/
def Begins (words text : String) : Prop :=
  words.toList <+: text.toList

theorem begins_append (words s : String) : Begins words (words ++ s) :=
  ⟨s.toList, String.toList_append.symm⟩

theorem Begins.append {words text : String} (h : Begins words text) (s : String) : Begins words (text ++ s) :=
  List.IsPrefix.trans h (begins_append text s)

end Text

theorem ValueType.blank_notMem_name (ty : ValueType) : ' ' ∉ ty.name.toList := by
  cases ty <;> decide

theorem Operation.backtick_notMem_name (op : Operation) : '`' ∉ op.name.toList := by
  cases op with
  | binary op => cases op <;> decide
  | _ => decide

theorem Handle.blank_notMem_text (h : Handle) : ' ' ∉ h.text.toList := by
  show ' ' ∉ ("%" ++ h.index.repr).toList
  rw [String.toList_append, Nat.toList_repr]
  intro hmem
  rcases List.mem_append.1 hmem with hmark | hdigit
  · exact absurd hmark (by decide)
  · exact absurd (Nat.isDigit_of_mem_toDigits (by decide) (by decide) hdigit) (by decide)

theorem Handle.text_injective : Function.Injective Handle.text := by
  intro a b h
  unfold text at h
  exact congrArg Handle.mk (Nat.repr_injective ((String.append_right_inj _).1 h))

/-- A handle with a blank after it is found again at the front of a text. -/
theorem Handle.eq_of_text_append {a b : Handle} {words s t : String} (hwords : words.toList.head? = some ' ')
    (h : a.text ++ words ++ s = b.text ++ words ++ t) : a = b ∧ s = t := by
  obtain ⟨htext, hrest⟩ := Text.eq_of_append_first hwords a.blank_notMem_text b.blank_notMem_text h
  exact ⟨text_injective htext, hrest⟩

theorem HandleRole.name_injective : Function.Injective HandleRole.name := by
  intro a b h
  cases a <;> cases b <;> first | rfl | (revert h; decide)

namespace OperandType

variable {a b : OperandType} {types types' : List OperandType}

theorem comma_notMem_name (a : OperandType) : ',' ∉ a.name.toList := by
  cases a with
  | typed ty => cases ty <;> decide
  | literal => decide

theorem names_singleton (a : OperandType) : names [a] = a.name :=
  String.intercalate_singleton

theorem names_cons_cons (a b : OperandType) (types : List OperandType) :
    names (a :: b :: types) = a.name ++ ", " ++ names (b :: types) :=
  String.intercalate_cons_cons

private theorem name_ne_names (a b b' : OperandType) (types : List OperandType) :
    a.name ≠ names (b :: b' :: types) := by
  intro h
  refine comma_notMem_name a ?_
  rw [h, names_cons_cons]
  simp

private theorem names_ne_empty (a : OperandType) (types : List OperandType) : names (a :: types) ≠ "" := by
  have hname : a.name ≠ "" := by
    cases a with
    | typed ty => cases ty <;> decide
    | literal => decide
  cases types with
  | nil => exact names_singleton a ▸ hname
  | cons b types =>
    rw [names_cons_cons]
    simp

/-- The names of operands determine the operands. -/
theorem names_injective : Function.Injective names := by
  intro types types' h
  induction types generalizing types' with
  | nil =>
    cases types' with
    | nil => rfl
    | cons b types' => exact absurd h.symm (names_ne_empty b types')
  | cons a types ih =>
    match types, types' with
    | types, [] => exact absurd h (names_ne_empty a types)
    | [], [b] =>
      rw [names_singleton, names_singleton] at h
      rw [name_injective h]
    | [], b :: b' :: types' => exact absurd (names_singleton a ▸ h) (name_ne_names a b b' types')
    | a' :: types, [b] => exact absurd (names_singleton b ▸ h.symm) (name_ne_names b a a' types)
    | a' :: types, b :: b' :: types' =>
      rw [names_cons_cons, names_cons_cons] at h
      obtain ⟨hname, hrest⟩ := Text.eq_of_append_first rfl (comma_notMem_name a) (comma_notMem_name b) h
      rw [name_injective hname, ih hrest]

end OperandType

namespace Error

/-- The words that a message begins with, whatever it is about. -/
def opening : Error → String
  | typeMismatch .. => "type mismatch: `"
  | undefinedAccessor .. => "invalid swizzle: `."
  | shapeMismatch .. => "invalid constructor shape: "
  | notVariable _ => "cannot assign to a "
  | foreignNode _ | wrongHandle .. => "%"
  | unknownType _ => "unknown type `"
  | unevaluable _ => "cannot evaluate: "

def openings : List String :=
  ["type mismatch: `", "invalid swizzle: `.", "invalid constructor shape: ", "cannot assign to a ", "%",
    "unknown type `", "cannot evaluate: "]

theorem opening_mem_openings (e : Error) : e.opening ∈ openings := by
  cases e <;> simp [opening, openings]

/-- No opening begins with another one. -/
private theorem eq_of_comparable : ∀ a ∈ openings, ∀ b ∈ openings,
    a.toList <+: b.toList ∨ b.toList <+: a.toList → a = b := by
  decide

theorem begins_opening (e : Error) : Text.Begins e.opening e.message := by
  cases e <;> unfold opening message
  case typeMismatch => exact (((Text.begins_append _ _).append _).append _).append _
  case undefinedAccessor => exact ((Text.begins_append _ _).append _).append _
  case shapeMismatch => exact (((Text.begins_append _ _).append _).append _).append _
  case notVariable => exact (Text.begins_append _ _).append _
  case foreignNode => exact (Text.begins_append _ _).append _
  case wrongHandle => exact ((Text.begins_append _ _).append _).append _
  case unknownType => exact (Text.begins_append _ _).append _
  case unevaluable => exact Text.begins_append _ _

/-- Messages that are the same open with the same words. -/
theorem opening_eq_of_message_eq {e e' : Error} (h : e.message = e'.message) : e.opening = e'.opening := by
  have hbegins := e'.begins_opening
  rw [← h] at hbegins
  refine eq_of_comparable _ e.opening_mem_openings _ e'.opening_mem_openings ?_
  exact List.prefix_or_prefix_of_prefix e.begins_opening hbegins

/-- A message that lists operands after a name determines both. -/
private theorem eq_of_listed {c : Char} {words a b named : String} {types types' : List OperandType}
    (hc : named.toList.head? = some c) (ha : c ∉ a.toList) (hb : c ∉ b.toList)
    (h : words ++ a ++ named ++ OperandType.names types ++ ")" =
      words ++ b ++ named ++ OperandType.names types' ++ ")") : a = b ∧ types = types' := by
  have hlisted := (String.append_left_inj _).1 h
  simp only [String.append_assoc, String.append_right_inj] at hlisted
  rw [← String.append_assoc, ← String.append_assoc] at hlisted
  obtain ⟨hname, hnames⟩ := Text.eq_of_append_first hc ha hb hlisted
  exact ⟨hname, OperandType.names_injective hnames⟩

private theorem typeMismatch_inj {op op' : Operation} {operands operands' : List OperandType}
    (h : (typeMismatch op operands).message = (typeMismatch op' operands').message) :
    op = op' ∧ operands = operands' := by
  unfold message at h
  obtain ⟨hname, hoperands⟩ := eq_of_listed rfl op.backtick_notMem_name op'.backtick_notMem_name h
  exact ⟨Operation.name_injective hname, hoperands⟩

private theorem shapeMismatch_inj {target target' : ValueType} {args args' : List OperandType}
    (h : (shapeMismatch target args).message = (shapeMismatch target' args').message) :
    target = target' ∧ args = args' := by
  unfold message at h
  obtain ⟨hname, hargs⟩ := eq_of_listed rfl target.blank_notMem_name target'.blank_notMem_name h
  exact ⟨ValueType.name_injective hname, hargs⟩

private theorem undefinedAccessor_inj {ty ty' : ValueType} {name name' : String}
    (h : (undefinedAccessor ty name).message = (undefinedAccessor ty' name').message) : ty = ty' ∧ name = name' := by
  unfold message at h
  obtain ⟨hname, hty⟩ := Text.eq_of_append_last rfl ty.blank_notMem_name ty'.blank_notMem_name h
  exact ⟨ValueType.name_injective hty, (String.append_right_inj _).1 hname⟩

private theorem wrongHandle_inj {handle handle' : Handle} {expected expected' : HandleRole}
    (h : (wrongHandle handle expected).message = (wrongHandle handle' expected').message) :
    handle = handle' ∧ expected = expected' := by
  unfold message at h
  obtain ⟨hhandle, hrole⟩ := Handle.eq_of_text_append rfl h
  exact ⟨hhandle, HandleRole.name_injective hrole⟩

/-- What follows the handle tells the two kinds of error apart that begin with one. -/
private theorem foreignNode_ne_wrongHandle (handle handle' : Handle) (expected : HandleRole) :
    (foreignNode handle).message ≠ (wrongHandle handle' expected).message := by
  intro h
  change handle.text ++ " belongs to another graph" = handle'.text ++ " is not a " ++ expected.name at h
  rw [show " belongs to another graph" = " " ++ "belongs to another graph" by decide,
    show " is not a " = " " ++ "is not a " by decide, ← String.append_assoc, ← String.append_assoc] at h
  have hparts : handle.text ++ " " ++ "belongs to another graph" =
      handle'.text ++ " " ++ ("is not a " ++ expected.name) := h.trans String.append_assoc
  have hwords := (Text.eq_of_append_first rfl handle.blank_notMem_text handle'.blank_notMem_text hparts).2
  cases expected <;> exact absurd hwords (by decide)

/-- Different errors have different messages. -/
theorem message_injective : Function.Injective message := by
  intro e e' h
  have hopening := opening_eq_of_message_eq h
  cases e with
  | typeMismatch op operands =>
    cases e' with
    | typeMismatch op' operands' =>
      obtain ⟨rfl, rfl⟩ := typeMismatch_inj h
      rfl
    | _ => simp [opening] at hopening
  | undefinedAccessor ty name =>
    cases e' with
    | undefinedAccessor ty' name' =>
      obtain ⟨rfl, rfl⟩ := undefinedAccessor_inj h
      rfl
    | _ => simp [opening] at hopening
  | shapeMismatch target args =>
    cases e' with
    | shapeMismatch target' args' =>
      obtain ⟨rfl, rfl⟩ := shapeMismatch_inj h
      rfl
    | _ => simp [opening] at hopening
  | notVariable ty =>
    cases e' with
    | notVariable ty' =>
      unfold message at h
      rw [ValueType.name_injective ((String.append_right_inj _).1 ((String.append_left_inj _).1 h))]
    | _ => simp [opening] at hopening
  | foreignNode handle =>
    cases e' with
    | foreignNode handle' =>
      unfold message at h
      rw [Handle.text_injective ((String.append_left_inj _).1 h)]
    | wrongHandle handle' expected => exact absurd h (foreignNode_ne_wrongHandle handle handle' expected)
    | _ => simp [opening] at hopening
  | wrongHandle handle expected =>
    cases e' with
    | wrongHandle handle' expected' =>
      obtain ⟨rfl, rfl⟩ := wrongHandle_inj h
      rfl
    | foreignNode handle' => exact absurd h.symm (foreignNode_ne_wrongHandle handle' handle expected)
    | _ => simp [opening] at hopening
  | unknownType name =>
    cases e' with
    | unknownType name' =>
      unfold message at h
      rw [(String.append_right_inj _).1 ((String.append_left_inj _).1 h)]
    | _ => simp [opening] at hopening
  | unevaluable reason =>
    cases e' with
    | unevaluable reason' =>
      unfold message at h
      rw [(String.append_right_inj _).1 h]
    | _ => simp [opening] at hopening

end Error

end ShaderExpr
