import Mathlib.Algebra.Order.Ring.Int
import Mathlib.Algebra.Order.Ring.Rat

/-! `serde_json::Value` and the rules by which derived types are read from it.
A JSON text and its parsed value are identified: every text the stores keep was
printed from a value. -/

namespace UwuContextDb

/-- `serde_json::Number`: an integer and a float never compare equal. -/
inductive Number | int (n : Int) | float (q : ℚ) deriving DecidableEq

inductive Json
  | null
  | bool (b : Bool)
  | num (n : Number)
  | str (s : String)
  | arr (items : List Json)
  | obj (fields : List (String × Json))

namespace Json

mutual
def beq : Json → Json → Bool
  | null, null => true
  | bool a, bool b => a == b
  | num a, num b => decide (a = b)
  | str a, str b => a == b
  | arr xs, arr ys => beqItems xs ys
  | obj xs, obj ys => beqFields xs ys
  | _, _ => false

def beqItems : List Json → List Json → Bool
  | [], [] => true
  | x::xs, y::ys => beq x y && beqItems xs ys
  | _, _ => false

def beqFields : List (String × Json) → List (String × Json) → Bool
  | [], [] => true
  | (k,x)::xs, (l,y)::ys => k == l && beq x y && beqFields xs ys
  | _, _ => false
end

mutual
theorem beq_iff : ∀ a b : Json, beq a b = true ↔ a = b
  | null, b => by cases b <;> simp [beq]
  | bool _, b => by cases b <;> simp [beq]
  | num _, b => by cases b <;> simp [beq]
  | str _, b => by cases b <;> simp [beq]
  | arr xs, b => by cases b <;> simp [beq, beqItems_iff xs]
  | obj xs, b => by cases b <;> simp [beq, beqFields_iff xs]

theorem beqItems_iff : ∀ xs ys : List Json, beqItems xs ys = true ↔ xs = ys
  | [], ys => by cases ys <;> simp [beqItems]
  | x::xs, ys => by cases ys <;> simp [beqItems,beq_iff x,beqItems_iff xs]

theorem beqFields_iff : ∀ xs ys : List (String × Json), beqFields xs ys = true ↔ xs = ys
  | [], ys => by cases ys <;> simp [beqFields]
  | (k,x)::xs, ys => by
    cases ys with
    | nil => simp [beqFields]
    | cons y ys =>
      obtain ⟨l,y⟩ := y
      simp [beqFields,beq_iff x,beqFields_iff xs,and_assoc]
end

instance : DecidableEq Json := fun a b => decidable_of_iff _ (beq_iff a b)

mutual
def depth : Json → Nat
  | arr items => itemsDepth items + 1
  | obj fields => fieldsDepth fields + 1
  | _ => 1

def itemsDepth : List Json → Nat
  | [] => 1
  | v::vs => max v.depth (itemsDepth vs)

def fieldsDepth : List (String × Json) → Nat
  | [] => 1
  | (_,v)::vs => max v.depth (fieldsDepth vs)
end

/-- `Value::get` on an object field. -/
def get? (key : String) : Json → Option Json
  | obj fields => fields.lookup key
  | _ => none

def ofNat (n : Nat) : Json := num (.int n)

def isObject : Json → Bool
  | obj _ => true
  | _ => false

def asString : Json → Option String
  | str s => some s
  | _ => none

def asNat : Json → Option Nat
  | num (.int (.ofNat n)) => some n
  | _ => none

def asInt : Json → Option Int
  | num (.int n) => some n
  | _ => none

def asFloat : Json → Option ℚ
  | num (.float q) => some q
  | _ => none

def asBool : Json → Option Bool
  | bool b => some b
  | _ => none

@[simp] theorem asNat_ofNat (n : Nat) : asNat (ofNat n) = some n := rfl

def asList : Json → Option (List Json)
  | arr items => some items
  | _ => none

def variant? : Json → Option (String × Json)
  | obj [tagged] => some tagged
  | _ => none

@[simp] theorem variant?_obj (k : String) (v : Json) : variant? (obj [(k,v)]) = some (k,v) := rfl

/-- `Option<T>`: `null` stands for `None`. -/
def ofOption {α : Type} (enc : α → Json) : Option α → Json
  | none => null
  | some a => enc a

/-- An `Option<T>` field: a missing key and `null` both give `None`. -/
def optionField {α : Type} (dec : Json → Option α) : Option Json → Option (Option α)
  | none => some none
  | some null => some none
  | some v => (dec v).map some

/-- A field under `skip_serializing_if = "Option::is_none"`. -/
def skipNone {α : Type} (key : String) (enc : α → Json) : Option α → List (String × Json)
  | none => []
  | some a => [(key, enc a)]

def ofList {α : Type} (enc : α → Json) (xs : List α) : Json := arr (xs.map enc)

def listOf {α : Type} (dec : Json → Option α) (v : Json) : Option (List α) :=
  v.asList.bind (fun items => items.mapM dec)

theorem listOf_ofList {α : Type} {enc : α → Json} {dec : Json → Option α}
    (h : ∀ a, dec (enc a) = some a) (xs : List α) : listOf dec (ofList enc xs) = some xs := by
  have hm : (xs.map enc).mapM dec = some xs := by
    induction xs with
    | nil => rfl
    | cons x xs ih => simp [h,ih]
  simpa [listOf,ofList,asList] using hm

end Json
end UwuContextDb
