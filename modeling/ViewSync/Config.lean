import ViewSync.Value.Reader

/-!
# Configuration

The settings of a view. They are read from JSON text, strictly: an object of known settings, none
twice, or an array that lists them in order; settings that are absent keep their defaults.
-/

namespace ViewSync

/-- The settings of a view. -/
structure Config where
  /-- Escape what expressions leave in a page. -/
  escapeHtml : Bool := true
  /-- Keep what was rendered before where nothing it depends on has changed. -/
  changeTracking : Bool := true
  /-- How many components may be mounted at once, if there is a limit. -/
  maxComponents : Option Nat := none
  deriving DecidableEq

namespace Config

/-- A truth value, and nothing that looks like one. -/
def flag? : Value → Option Bool
  | .bool b => some b
  | _ => none

/-- A limit: `null` for none, or an integer of 64 bits without a sign. -/
def limit? : Value → Option (Option Nat)
  | .null => some none
  | .num (.int z) => if 0 ≤ z then some (some z.toNat) else none
  | _ => none

/-- Change one setting by its name. -/
def set? (c : Config) (name : String) (v : Value) : Option Config :=
  match name with
  | "escape_html" => (flag? v).map fun b => { c with escapeHtml := b }
  | "change_tracking" => (flag? v).map fun b => { c with changeTracking := b }
  | "max_components" => (limit? v).map fun m => { c with maxComponents := m }
  | _ => none

/-- Change settings one after the other. No name may come twice. -/
def setAll? (c : Config) : List (String × Value) → Option Config
  | [] => some c
  | (name, v) :: fs =>
    if fs.any (fun f => f.1 = name) then none else (c.set? name v).bind (setAll? · fs)

/-- The settings in the order in which an array lists them. -/
def order : List String := ["escape_html", "change_tracking", "max_components"]

/-- The settings of a value whose objects list their fields as written. -/
def ofValue? : Value → Option Config
  | .obj fields => ({} : Config).setAll? fields
  | .arr items =>
    if items.length ≤ order.length then ({} : Config).setAll? (order.zip items) else none
  | _ => none

/-- The settings of a text. -/
def parse? (source : String) : Option Config := (Value.readFields? source).bind ofValue?

end Config

end ViewSync
