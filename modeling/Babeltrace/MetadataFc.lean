import Babeltrace.ItemSeqModel

/-!
# Field classes of CTF 2 metadata streams

Field classes as the JSON metadata stream parser handles them: a dependent one has the location of
its key, and members have names. Text locations, attributes, display bases, media types and option
names are left out.
-/
namespace Babeltrace.Metadata
open ItemSeq

/-- An item which isn't a name (`none`) is the parent of the current field. -/
structure FieldLoc where
  origin : Option Scope
  items : List (Option String)
  deriving DecidableEq, Repr

/-- String and BLOB field classes which have no key -/
inductive StrBlobFc
  | nullTerminatedStr (encoding : StrEncoding)
  | staticLenStr (encoding : StrEncoding) (len : ℕ)
  | staticLenBlob (len : ℕ)
  | staticLenBlobWithMetadataStreamUuidRole
  deriving DecidableEq, Repr

/-- `mappings` are those of an integer field class or the flags of a bit map field class. The ranges
of a selector depend on the step of the parser. -/
inductive Fc
  | scalar (fc : ScalarFc) (mappings : List (String × Ranges))
  | strBlob (fc : StrBlobFc)
  | dynLenStr (encoding : StrEncoding) (lenFieldLoc : FieldLoc)
  | dynLenBlob (lenFieldLoc : FieldLoc)
  | staticLenArray (align len : ℕ) (elemFc : Fc)
  | dynLenArray (align : ℕ) (lenFieldLoc : FieldLoc) (elemFc : Fc)
  | struct (align : ℕ) (members : List (String × Fc))
  | optional (sel : OptionalSel) (selFieldLoc : FieldLoc) (fc : Fc)
  | variant (isSigned : Bool) (selFieldLoc : FieldLoc) (opts : List (Ranges × Fc))

/-- The causes of a `bt2c::Error`, the first one first, or a failed assertion or precondition -/
inductive Err
  | causes (msgs : List String)
  | abort (what : String)
  deriving DecidableEq, Repr

/-- `BT_CPPLOGE_TEXT_LOC_APPEND_CAUSE_AND_RETHROW` -/
def appendCause {α : Type} (msg : String) : Except Err α → Except Err α
  | .error (.causes msgs) => .error (.causes (msgs ++ [msg]))
  | r => r

variable {α β : Type} {P : Prop} {x : Except Err α} {f : α → Except Err β} {a : α} {Q : α → Prop}
  {P' : Prop} {R : β → Prop}

@[simp] theorem appendCause_toOption (msg : String) (r : Except Err α) :
    (appendCause msg r).toOption = r.toOption := by
  unfold appendCause
  split <;> rfl

def NoAbort {α : Type} : Except Err α → Prop
  | .error (.abort _) => False
  | _ => True

theorem NoAbort.bind (hx : NoAbort x) (hf : ∀ a, NoAbort (f a)) : NoAbort (x >>= f) := by
  cases x with
  | ok a => exact hf a
  | error e => cases e <;> exact hx

theorem NoAbort.appendCause {msg : String} (hx : NoAbort x) : NoAbort (appendCause msg x) := by
  cases x with
  | ok a => trivial
  | error e => cases e <;> exact hx

theorem NoAbort.pure (a : α) : NoAbort (pure a : Except Err α) := trivial

def Decides {α : Type} (P : Prop) (Q : α → Prop) (x : Except Err α) : Prop :=
  (P ∧ ∃ a, x = .ok a ∧ Q a) ∨ (¬P ∧ ∃ what, x = .error (.abort what))

theorem Decides.pure (ha : Q a) : Decides True Q (pure a : Except Err α) :=
  .inl ⟨trivial, a, rfl, ha⟩

theorem Decides.congr (hx : Decides P Q x) (h : P ↔ P') : Decides P' Q x := by
  unfold Decides
  rwa [← h]

theorem Decides.bind (hx : Decides P Q x) (hf : P → ∀ a, Q a → Decides P' R (f a)) :
    Decides (P ∧ P') R (x >>= f) := by
  rcases hx with ⟨hP, a, rfl, ha⟩ | ⟨hP, what, rfl⟩
  · exact (hf hP a ha).congr (and_iff_right hP).symm
  · exact .inr ⟨fun h => hP h.1, what, rfl⟩

theorem Decides.map {f : α → β} (hx : Decides P Q x) (hf : ∀ a, Q a → R (f a)) :
    Decides P R (x >>= fun a => Pure.pure (f a)) := by
  rcases hx with ⟨hP, a, rfl, ha⟩ | ⟨hP, what, rfl⟩
  · exact .inl ⟨hP, f a, rfl, hf a ha⟩
  · exact .inr ⟨hP, what, rfl⟩

theorem Decides.pure_of (hP : P) (ha : Q a) : Decides P Q (Pure.pure a : Except Err α) :=
  .inl ⟨hP, a, rfl, ha⟩

theorem Decides.noAbort_iff (hx : Decides P Q x) : NoAbort x ↔ P := by
  rcases hx with ⟨hP, a, rfl, -⟩ | ⟨hP, what, rfl⟩
  · exact iff_of_true trivial hP
  · exact iff_of_false id hP

end Babeltrace.Metadata
