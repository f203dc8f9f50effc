import Mathlib.Data.List.Perm.Basic
import Mathlib.Algebra.BigOperators.Group.List.Basic
import Mathlib.Algebra.Ring.Nat

/-!
# JSON documents and their compact text

A document is an ordinary JSON value, with a number kept as the text it is printed as. The
fields of an object stand in key order. `render` is the compact text, without any blank,
and `size` its length in bytes; what matters below is by how much a new field makes a
document longer.
-/

namespace AgentHouse

/-- JSON values; numbers are kept as text. -/
inductive Json where
  | null
  | bool (b : Bool)
  | num (text : String)
  | str (s : String)
  | arr (items : List Json)
  | obj (fields : List (String × Json))
deriving Inhabited

namespace Json

/-- A digit of an escape. -/
private def hexDigit (n : ℕ) : Char :=
  if n < 10 then Char.ofNat (48 + n) else Char.ofNat (87 + n)

/-- One character inside a quoted string. -/
def escape (c : Char) : String :=
  if c = '"' then "\\\""
  else if c = '\\' then "\\\\"
  else if c = '\n' then "\\n"
  else if c = '\r' then "\\r"
  else if c = '\t' then "\\t"
  else if c.toNat = 8 then "\\b"
  else if c.toNat = 12 then "\\f"
  else if c.toNat < 32 then
    "\\u00" ++ String.ofList [hexDigit (c.toNat / 16), hexDigit (c.toNat % 16)]
  else String.singleton c

/-- A string as JSON writes it. -/
def quote (s : String) : String :=
  "\"" ++ String.join (s.toList.map escape) ++ "\""

mutual

/-- The compact text of a document. -/
def render : Json → String
  | null => "null"
  | bool b => if b then "true" else "false"
  | num text => text
  | str s => quote s
  | arr items => "[" ++ renderItems items ++ "]"
  | obj fields => "\x7b" ++ renderFields fields ++ "\x7d"

/-- The items of an array, with commas between them. -/
def renderItems : List Json → String
  | [] => ""
  | v :: rest => v.render ++ (if rest.isEmpty then "" else ",") ++ renderItems rest

/-- The fields of an object, with commas between them. -/
def renderFields : List (String × Json) → String
  | [] => ""
  | (k, v) :: rest =>
      quote k ++ ":" ++ v.render ++ (if rest.isEmpty then "" else ",") ++ renderFields rest

end

mutual

/-- Documents are compared field by field. -/
def decEq : (v w : Json) → Decidable (v = w)
  | null, null => .isTrue rfl
  | bool a, bool b => decidable_of_iff (a = b) (by rw [bool.injEq])
  | num a, num b => decidable_of_iff (a = b) (by rw [num.injEq])
  | str a, str b => decidable_of_iff (a = b) (by rw [str.injEq])
  | arr a, arr b => @decidable_of_iff _ (a = b) (by rw [arr.injEq]) (decEqItems a b)
  | obj a, obj b => @decidable_of_iff _ (a = b) (by rw [obj.injEq]) (decEqFields a b)
  | null, bool _ | null, num _ | null, str _ | null, arr _ | null, obj _
  | bool _, null | bool _, num _ | bool _, str _ | bool _, arr _ | bool _, obj _
  | num _, null | num _, bool _ | num _, str _ | num _, arr _ | num _, obj _
  | str _, null | str _, bool _ | str _, num _ | str _, arr _ | str _, obj _
  | arr _, null | arr _, bool _ | arr _, num _ | arr _, str _ | arr _, obj _
  | obj _, null | obj _, bool _ | obj _, num _ | obj _, str _ | obj _, arr _ =>
      .isFalse nofun

/-- Equality of arrays is decidable. -/
def decEqItems : (v w : List Json) → Decidable (v = w)
  | [], [] => .isTrue rfl
  | [], _ :: _ | _ :: _, [] => .isFalse nofun
  | v :: vs, w :: ws =>
      have := decEq v w
      have := decEqItems vs ws
      decidable_of_iff (v = w ∧ vs = ws) (by rw [List.cons.injEq])

/-- Equality of objects is decidable. -/
def decEqFields : (v w : List (String × Json)) → Decidable (v = w)
  | [], [] => .isTrue rfl
  | [], _ :: _ | _ :: _, [] => .isFalse nofun
  | (k, v) :: vs, (l, w) :: ws =>
      have := decEq v w
      have := decEqFields vs ws
      decidable_of_iff (k = l ∧ v = w ∧ vs = ws) (by rw [List.cons.injEq, Prod.mk.injEq, and_assoc])

end

instance : DecidableEq Json := decEq

/-- The length of the compact text in bytes. -/
def size (v : Json) : ℕ := v.render.utf8ByteSize

/-- The value of a field, if the document is an object that has it. -/
def get? (v : Json) (k : String) : Option Json :=
  match v with
  | obj fields => fields.lookup k
  | _ => none

/-- The value of a field, `null` without it. -/
def index (v : Json) (k : String) : Json :=
  (v.get? k).getD null

/-- The text of a string. -/
def asStr : Json → Option String
  | str s => some s
  | _ => none

/-- The value is `true`. -/
def isTrue : Json → Bool
  | bool b => b
  | _ => false

/-- The value is a boolean. -/
def isBoolean : Json → Bool
  | bool _ => true
  | _ => false

/-- The value is a string. -/
def isString : Json → Bool
  | str _ => true
  | _ => false

/-- The value of decimal digits. -/
def ofDigits (digits : List Char) : ℕ := digits.foldl (fun n c => 10 * n + (c.toNat - 48)) 0

/-- A number that is printed as a `u64`. -/
def asU64 : Json → Option ℕ
  | num text =>
      (some (ofDigits text.toList)).filter fun n => toString n = text && n < 2 ^ 64
  | _ => none

/-- A value that may be missing. -/
def ofOption (v : Option Json) : Json :=
  v.getD null

/-- Set one field of an object, in its place in key order. -/
def setFields (k : String) (v : Json) : List (String × Json) → List (String × Json)
  | [] => [(k, v)]
  | f :: rest =>
      if k = f.1 then (k, v) :: rest
      else if k < f.1 then (k, v) :: f :: rest
      else f :: setFields k v rest

/-- The field gets a value. -/
def set (k : String) (v : Json) : Json → Json
  | obj fields => obj (setFields k v fields)
  | other => other

/-- The fields without a key. -/
def remove (k : String) (fields : List (String × Json)) : List (String × Json) :=
  fields.filter (fun f => f.1 ≠ k)

/-- The bytes of one field: its quoted key, the colon and its value. -/
def fieldSize (f : String × Json) : ℕ :=
  (quote f.1).utf8ByteSize + 1 + f.2.size

/-- Between the braces stand the fields and one comma after each but the last. -/
theorem renderFields_size (fields : List (String × Json)) :
    (renderFields fields).utf8ByteSize =
      (fields.map fieldSize).sum + (fields.length - 1) := by
  induction fields with
  | nil => rfl
  | cons f rest ih =>
    obtain ⟨k, v⟩ := f
    have hcolon : ":".utf8ByteSize = 1 := by decide
    rw [renderFields, String.utf8ByteSize_append, String.utf8ByteSize_append,
      String.utf8ByteSize_append, String.utf8ByteSize_append, ih, hcolon]
    cases rest with
    | nil => simp [fieldSize, size]
    | cons g rest =>
      have hcomma : ",".utf8ByteSize = 1 := by decide
      simp only [List.isEmpty_cons, Bool.false_eq_true, ↓reduceIte, hcomma, List.map_cons,
        List.sum_cons, List.length_cons, fieldSize, size]
      omega

/-- The size of an object is that of its fields and of what stands between them. -/
theorem size_obj (fields : List (String × Json)) :
    (obj fields).size = 2 + ((fields.map fieldSize).sum + (fields.length - 1)) := by
  have hopen : "\x7b".utf8ByteSize = 1 := by decide
  have hclose : "\x7d".utf8ByteSize = 1 := by decide
  rw [size, render, String.utf8ByteSize_append, String.utf8ByteSize_append, hopen, hclose,
    renderFields_size]
  omega

theorem utf8ByteSize_join (l : List String) :
    (String.join l).utf8ByteSize = (l.map String.utf8ByteSize).sum := by
  induction l with
  | nil => rfl
  | cons s rest ih =>
    rw [String.join_cons, String.utf8ByteSize_append, ih]
    rfl

/-- A string of plain characters takes its characters and two quotes. -/
theorem size_str_replicate (n : ℕ) : (str (String.ofList (List.replicate n 'a'))).size = n + 2 := by
  have hquote : "\"".utf8ByteSize = 1 := by decide
  have hplain : (escape 'a').utf8ByteSize = 1 := by decide
  rw [size, render, quote, String.utf8ByteSize_append, String.utf8ByteSize_append, hquote,
    utf8ByteSize_join]
  simp only [String.toList_ofList, List.map_replicate, hplain, List.sum_replicate_nat, Nat.mul_one]
  omega

/-- A field that was not there is one more. -/
theorem setFields_perm {k : String} (v : Json) {fields : List (String × Json)}
    (h : ∀ f ∈ fields, f.1 ≠ k) : (setFields k v fields).Perm ((k, v) :: fields) := by
  induction fields with
  | nil => exact List.Perm.refl _
  | cons f rest ih =>
    have hf : ¬k = f.1 := fun he => h f List.mem_cons_self he.symm
    rw [setFields, if_neg hf]
    split
    · exact List.Perm.refl _
    · exact ((ih fun g hg => h g (List.mem_cons_of_mem _ hg)).cons f).trans
        (List.Perm.swap _ _ _)

/-- A new field makes a nonempty object longer by its own bytes and a comma. -/
theorem size_set {k : String} (v : Json) {fields : List (String × Json)}
    (hne : fields ≠ []) (h : ∀ f ∈ fields, f.1 ≠ k) :
    (set k v (obj fields)).size = (obj fields).size + (fieldSize (k, v) + 1) := by
  have hperm := setFields_perm v h
  have hlen : 0 < fields.length := List.length_pos_iff.mpr hne
  rw [set, size_obj, size_obj, (hperm.map fieldSize).sum_eq, hperm.length_eq]
  simp only [List.map_cons, List.sum_cons, List.length_cons]
  omega

end Json

end AgentHouse
