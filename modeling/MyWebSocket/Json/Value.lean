import MyWebSocket.Http.Request
import MyWebSocket.Library.Http11
import MyWebSocket.Library.OrderedMap

namespace MyWebSocket

/-!
# JSON values

`lept_value` of the bundled leptjson, and the text `stringify` makes of it.

The functions that format and read floating-point numbers are not modelled: `δ` is the type of
these numbers, and `DoubleText` what `snprintf` and double-conversion do with them.
-/

/-- A `lept_value`; `object_t` is a `std::map`, here its entries in the order of iteration. -/
inductive LeptValue (δ : Type)
  | null
  | boolean (b : Bool)
  | number (n : δ)
  | integer (i : Int32)
  | string (s : Bytes)
  | array (arr : List (LeptValue δ))
  | object (obj : List (Bytes × LeptValue δ))

/-- Floating-point numbers and their texts. -/
structure DoubleText (δ : Type) where
  /-- `snprintf` with `%.17g`. -/
  print : δ → Bytes
  /-- `StringToDouble`, unless it gives an infinity or no number. -/
  read : Bytes → Option δ

/-- Where the model stops: an assertion fails, a signed integer overflows, or a loop or recursion
    outlives its fuel. -/
inductive Halt
  | assertion
  | overflow
  | fuel
deriving DecidableEq, Repr

variable {δ : Type}

namespace LeptValue

/-- A value built from null, booleans, 32-bit integers, byte strings, arrays and objects, the
    keys of each object in the order of its map. -/
inductive Plain : LeptValue δ → Prop
  | null : Plain .null
  | boolean (b : Bool) : Plain (.boolean b)
  | integer (i : Int32) : Plain (.integer i)
  | string (s : Bytes) : Plain (.string s)
  | array {arr : List (LeptValue δ)} (elems : ∀ v ∈ arr, Plain v) : Plain (.array arr)
  | object {obj : List (Bytes × LeptValue δ)} (ordered : OrderedMap.Ordered obj)
      (values : ∀ e ∈ obj, Plain e.2) : Plain (.object obj)

/-! ### `stringify` -/

/-- `snprintf(buff, 7, "\\u%04X", ch)`: six characters fit. -/
def unicodeEscape (ch : UInt8) : Bytes :=
  -- the signed `char` becomes an `int`, which `%X` prints as unsigned
  let n := ch.toInt8.toInt32.toUInt32.toNat
  let digits := ((Nat.toDigits 16 n).leftpad 4 '0').map Char.toUpper
  (str "\\u" ++ digits.map fun c => UInt8.ofNat c.toNat).take 6

/-- What `stringify_string` makes of one `char`. -/
def escapeChar (ch : UInt8) : Bytes :=
  if ch = 0x22 then str "\\\""
  else if ch = 0x2F then str "\\/"
  else if ch = 0x5C then str "\\\\"
  else if ch = 0x08 then str "\\b"
  else if ch = 0x09 then str "\\t"
  else if ch = 0x0D then str "\\r"
  else if ch = 0x0C then str "\\f"
  else if ch = 0x0A then str "\\n"
  -- `ch < 0x20` on a signed `char`
  else if ch.toInt8 < 0x20 then unicodeEscape ch
  else [ch]

/-- `lept_value::stringify_string`. -/
def stringifyString (s : Bytes) : Bytes :=
  0x22 :: s.flatMap escapeChar ++ [0x22]

/-- `snprintf(s, sizeof(s), "%d", v.i)`. -/
def stringifyInteger (i : Int32) : Bytes :=
  if i.toInt < 0 then 0x2D :: Http11.decimal i.toInt.natAbs else Http11.decimal i.toInt.natAbs

mutual

/-- `lept_value::stringify_value`. -/
def stringifyValue (fp : DoubleText δ) : LeptValue δ → Bytes
  | .null => str "null"
  | .boolean b => if b then str "true" else str "false"
  | .number n => fp.print n
  | .integer i => stringifyInteger i
  | .string s => stringifyString s
  | .array arr => 0x5B :: stringifyElements fp false arr ++ [0x5D]
  | .object obj => 0x7B :: stringifyEntries fp false obj ++ [0x7D]

/-- The loop over the elements of an array. -/
def stringifyElements (fp : DoubleText δ) (flag : Bool) : List (LeptValue δ) → Bytes
  | [] => []
  | v :: arr =>
    (if flag then [0x2C] else []) ++ stringifyValue fp v ++ stringifyElements fp true arr

/-- The loop over the entries of an object: the keys are written as they are. -/
def stringifyEntries (fp : DoubleText δ) (flag : Bool) : List (Bytes × LeptValue δ) → Bytes
  | [] => []
  | (k, v) :: obj =>
    (if flag then [0x2C] else []) ++ 0x22 :: k ++ [0x22, 0x3A] ++ stringifyValue fp v ++
      stringifyEntries fp true obj

end

/-! ### What a value is made of -/

/-- A key of an object, or a value that is neither an array nor an object. -/
inductive Atom (δ : Type)
  | key (k : Bytes)
  | leaf (v : LeptValue δ)

mutual

/-- The keys and leaves at any depth. -/
def atoms : LeptValue δ → List (Atom δ)
  | .array arr => elementAtoms arr
  | .object obj => entryAtoms obj
  | v => [.leaf v]

def elementAtoms : List (LeptValue δ) → List (Atom δ)
  | [] => []
  | v :: arr => v.atoms ++ elementAtoms arr

def entryAtoms : List (Bytes × LeptValue δ) → List (Atom δ)
  | [] => []
  | (k, v) :: obj => .key k :: v.atoms ++ entryAtoms obj

end

@[simp] theorem atoms_array (arr : List (LeptValue δ)) :
    (LeptValue.array arr).atoms = arr.flatMap atoms := by
  rw [atoms]
  induction arr with
  | nil => rw [elementAtoms, List.flatMap_nil]
  | cons v arr ih => rw [elementAtoms, ih, List.flatMap_cons]

@[simp] theorem atoms_object (obj : List (Bytes × LeptValue δ)) :
    (LeptValue.object obj).atoms = obj.flatMap fun e => .key e.1 :: e.2.atoms := by
  rw [atoms]
  induction obj with
  | nil => rw [entryAtoms, List.flatMap_nil]
  | cons e obj ih => rw [entryAtoms, ih, List.flatMap_cons]

/-- The loop of `stringify_string` counts with an `int`, which cannot reach the length. -/
def Atom.overflows : Atom δ → Bool
  | .leaf (.string s) => 2 ^ 31 ≤ s.length
  | _ => false

/-- `lept_value::stringify`. -/
def stringify (fp : DoubleText δ) (v : LeptValue δ) : Except Halt Bytes :=
  if v.atoms.any Atom.overflows then .error .overflow else .ok (v.stringifyValue fp)

mutual

/-- The value with another string in place of each string value. -/
def mapStrings (f : Bytes → Bytes) : LeptValue δ → LeptValue δ
  | .string s => .string (f s)
  | .array arr => .array (mapElements f arr)
  | .object obj => .object (mapEntries f obj)
  | v => v

def mapElements (f : Bytes → Bytes) : List (LeptValue δ) → List (LeptValue δ)
  | [] => []
  | v :: arr => v.mapStrings f :: mapElements f arr

def mapEntries (f : Bytes → Bytes) : List (Bytes × LeptValue δ) → List (Bytes × LeptValue δ)
  | [] => []
  | (k, v) :: obj => (k, v.mapStrings f) :: mapEntries f obj

end

@[simp] theorem mapStrings_array (f : Bytes → Bytes) (arr : List (LeptValue δ)) :
    (LeptValue.array arr).mapStrings f = .array (arr.map (mapStrings f)) := by
  rw [mapStrings]
  induction arr with
  | nil => rw [mapElements, List.map_nil]
  | cons v arr ih =>
    rw [mapElements, List.map_cons, LeptValue.array.injEq]
    exact congrArg _ (LeptValue.array.inj ih)

@[simp] theorem mapStrings_object (f : Bytes → Bytes) (obj : List (Bytes × LeptValue δ)) :
    (LeptValue.object obj).mapStrings f = .object (obj.map fun e => (e.1, e.2.mapStrings f)) := by
  rw [mapStrings]
  induction obj with
  | nil => rw [mapEntries, List.map_nil]
  | cons e obj ih =>
    rw [mapEntries, List.map_cons, LeptValue.object.injEq]
    exact congrArg _ (LeptValue.object.inj ih)

end LeptValue

end MyWebSocket
