import PveCompose.Text

/-!
# The document: YAML values and the `compose` subtree (`doc.rs`)

`Value` is the tree the YAML library reads, with the library's two ways of looking at it: the
accessors (`get`, `asStr`, `asMapping`, `isNull`) look through a tag, a pattern match does not.
Over it, the subtree of a guest's document: `Doc`, what `parse` accepts, and the project name made
from a hostname.

The library's own step from text to `Doc` is a parameter here (`fromYaml`).
-/

namespace PveCompose

/-! ### YAML values -/

/-- A YAML number: an integer, or a float by the text it prints as. -/
inductive Number where
  | int : ℤ → Number
  | float : Text → Number
deriving DecidableEq

/-- A YAML value; the entries of a mapping are in order. -/
inductive Value where
  | null : Value
  | bool : Bool → Value
  | number : Number → Value
  | string : Text → Value
  | sequence : List Value → Value
  | mapping : List (Value × Value) → Value
  | tagged : Text → Value → Value

/-- `Display` of a number. -/
def Number.text : Number → Text
  | .int (.ofNat n) => dec n
  | .int (.negSucc n) => '-' :: dec (n + 1)
  | .float t => t

/-- `as_i64`. -/
def Number.asI64 : Number → Option ℤ
  | .int n => if -2 ^ 63 ≤ n ∧ n < 2 ^ 63 then some n else none
  | .float _ => none

abbrev Mapping := List (Value × Value)

namespace Value

def untag : Value → Value
  | .tagged _ v => v.untag
  | v => v

def isNull (v : Value) : Bool :=
  match v.untag with
  | .null => true
  | _ => false

def asStr (v : Value) : Option Text :=
  match v.untag with
  | .string s => some s
  | _ => none

def asMapping (v : Value) : Option Mapping :=
  match v.untag with
  | .mapping m => some m
  | _ => none

def isMapping (v : Value) : Bool := v.asMapping.isSome

/-- Whether a key is the string `k`, no tag looked through: what a lookup by `k` compares. -/
def isKey (k : Text) : Value → Bool
  | .string s => s = k
  | _ => false

end Value

namespace Mapping

def get (m : Mapping) (k : Text) : Option Value := (m.find? fun e => e.1.isKey k).map Prod.snd

/-- `insert` under the string `k`: in its place, or at the end. -/
def insert (m : Mapping) (k : Text) (v : Value) : Mapping :=
  if m.any fun e => e.1.isKey k then m.map fun e => if e.1.isKey k then (e.1, v) else e
  else m ++ [(.string k, v)]

end Mapping

/-- `Value::get` with a string. -/
def Value.get (v : Value) (k : Text) : Option Value := v.asMapping.bind fun m => Mapping.get m k

/-! ### The document -/

inductive Mode where
  | auto : Mode
  | manual : Mode
deriving DecidableEq

structure Policy where
  pct : Mode
  docker : Mode
  pull : Mode
  up : Mode
deriving DecidableEq

def Policy.default : Policy := { pct := .auto, docker := .auto, pull := .manual, up := .manual }

structure Stack where
  owner : Option Text
deriving DecidableEq

structure Doc where
  stack : Stack
  policy : Policy
  spec : Value

/-- `flag_of`: `true`/`false`, `1`/`0` and their spellings as text. -/
def flagOf : Value → Option Bool
  | .bool b => some b
  | .number n => n.asI64.bind fun i => if i = 0 then some false else if i = 1 then some true else none
  | .string s =>
    let s := trim s
    if s = "1" ∨ s = "true" ∨ s = "yes" ∨ s = "on" then some true
    else if s = "0" ∨ s = "false" ∨ s = "no" ∨ s = "off" then some false
    else none
  | _ => none

/-- `flag_opt`: a null is no flag, anything else must be one. -/
def flagOpt (v : Value) : Result (Option Bool) :=
  if v.isNull then .ok none
  else match flagOf v with
    | some b => .ok (some b)
    | none => bail "expected a boolean (true/false or 1/0)"

/-- `split_owner`: `uid:gid`, or `uid` for both. -/
def splitOwner (owner : Text) : Result (Text × Text) :=
  let (u, g) := (Words.splitOnce ':' owner).getD (owner, owner)
  if u = [] ∨ g = [] ∨ ¬ u.all isDigit ∨ ¬ g.all isDigit then
    bail ("owner '" ++ owner ++ "' is not uid:gid")
  else .ok (u, g)

/-- `parse`; `fromYaml` is the YAML library reading a `Doc`. -/
def parse (fromYaml : Text → Result Doc) (text : Text) : Result Doc := do
  let doc ← withContext "compose subtree" (fromYaml text)
  if doc.spec.isMapping then
    match doc.stack.owner with
    | none => .ok doc
    | some o =>
      let _ ← withContext "compose.stack.owner" (splitOwner o)
      .ok doc
  else bail "compose.spec must be a map (the compose document)"

/-- A document as read: the subtree, the text it came from, and that text's digest. -/
structure Read where
  vmid : ℕ
  text : Text
  digest : Text
  doc : Doc

/-- What `parse` accepts came from the library, is a map, and names a usable owner or none. -/
theorem parse_ok {fromYaml : Text → Result Doc} {text : Text} {doc : Doc}
    (h : parse fromYaml text = .ok doc) :
    fromYaml text = .ok doc ∧ doc.spec.isMapping = true ∧
      ∀ o ∈ doc.stack.owner, ∃ ug, splitOwner o = .ok ug := by
  obtain ⟨d, hd, h⟩ := bind_eq_ok.mp h
  rw [withContext_eq_ok] at hd
  split_ifs at h with hmap
  · split at h
    · rename_i ho
      cases h
      exact ⟨hd, hmap, by simp [ho]⟩
    · rename_i o ho
      obtain ⟨ug, hug, h⟩ := bind_eq_ok.mp h
      cases h
      refine ⟨hd, hmap, ?_⟩
      rintro o' ho'
      obtain rfl : o = o' := by simpa [ho] using ho'
      exact ⟨ug, withContext_eq_ok.mp hug⟩
  · exact absurd h bail_ne_ok

/-! ### Project names -/

def isLowerOrDigit (c : Char) : Bool := ('a' ≤ c && c ≤ 'z') || isDigit c

/-- `project_name_from`: lowercased, anything else `-`, and freed of a bad first character. -/
def projectNameFrom (hostname : Text) : Text :=
  let out := (hostname.map fun c =>
    if 'A' ≤ c ∧ c ≤ 'Z' then c.toLower
    else if isLowerOrDigit c ∨ c = '-' ∨ c = '_' then c else '-').dropWhile (! isLowerOrDigit ·)
  if out = [] then "stack" else out

end PveCompose
