import Anatomy.Text.Dotted
import Anatomy.Text.Quoted

namespace Anatomy.Text.Blank

/-- The white space characters: those of Unicode and the four information separators. -/
def isBlank (c : Char) : Bool :=
  let n := c.toNat
  (0x09 ≤ n && n ≤ 0x0D) || (0x1C ≤ n && n ≤ 0x20) || n == 0x85 || n == 0xA0 || n == 0x1680 ||
    (0x2000 ≤ n && n ≤ 0x200A) || n == 0x2028 || n == 0x2029 || n == 0x202F || n == 0x205F ||
    n == 0x3000

def trimChars (cs : List Char) : List Char :=
  ((cs.dropWhile isBlank).reverse.dropWhile isBlank).reverse

def trim (text : String) : String :=
  String.ofList (trimChars text.toList)

end Anatomy.Text.Blank

namespace Anatomy

open Text.Sequence

/-- How signatures are extracted and types are rendered: the modules whose names need no path, in
code point order, and whether bound variables are given fresh names first. -/
structure Settings where
  visible : List String := ["Base", "Core", "Main"]
  hygiene : Bool := false
  deriving DecidableEq, Inhabited

inductive Property
  | null
  | bool (b : Bool)
  | number (mantissa : Int) (places : Nat)
  | text (s : String)
  | list (items : List Property)
  | object (entries : List (String × Property))
  deriving Inhabited

inductive Complaint
  | notAnObject
  | unknownProperty
  | notAList
  | notAText
  | badModulePath (path : String)
  | unreadableTruth
  | notATruth
  deriving DecidableEq, Inhabited

namespace Complaint

def label : Complaint → String
  | .notAnObject => "model_type"
  | .unknownProperty => "extra_forbidden"
  | .notAList => "frozen_set_type"
  | .notAText => "string_type"
  | .badModulePath _ => "value_error"
  | .unreadableTruth => "bool_parsing"
  | .notATruth => "bool_type"

def message? : Complaint → Option String
  | .badModulePath path => some ("Invalid module path: " ++ Text.Quoted.quote path)
  | _ => none

end Complaint

structure Issue where
  location : List String
  complaint : Complaint
  deriving DecidableEq, Inhabited

namespace Issue

def locationPrecedes : List String → List String → Bool
  | [], _ => true
  | _ :: _, [] => false
  | a :: as, b :: bs => decide (a < b) || (a == b && locationPrecedes as bs)

def precedes (i j : Issue) : Bool :=
  if i.location = j.location then decide (i.complaint.label ≤ j.complaint.label)
  else locationPrecedes i.location j.location

end Issue

/-- The kinds of settings, of which each knows the properties of the one before it. -/
inductive Profile
  | base
  | render
  | signature
  deriving DecidableEq, Inhabited

def Profile.label : Profile → String
  | .base => "BaseConfiguration"
  | .render => "RenderConfig"
  | .signature => "SignatureConfig"

structure SettingsFault where
  profile : Profile
  issues : List Issue
  deriving DecidableEq, Inhabited

def SettingsFault.message (f : SettingsFault) : String :=
  "Invalid " ++ f.profile.label ++ " configuration"

namespace Settings

def modulePath? (path : String) : Option String :=
  if Text.Dotted.isSolid (Text.Blank.trim path) then some (Text.Blank.trim path) else none

def modulePaths (paths : List String) : Except String (List String) :=
  match paths.find? fun path => (modulePath? path).isNone with
  | some path => .error path
  | none => .ok (textSet (paths.filterMap modulePath?))

def textItem? : Property → Option String
  | .text s => some s
  | _ => none

def textIssues (items : List Property) : List Issue :=
  (items.mapIdx fun i item => (textItem? item, i)).filterMap fun
    | (none, i) => some ⟨["visible_modules", toString i], .notAText⟩
    | (some _, _) => none

/-- Stands for the validation library, pydantic, which is outside of this development. As its
documentation says, a list of texts is coerced to the set of its items, and the paths are looked at
only if all items are texts. -/
def readVisible : Property → Except (List Issue) (List String)
  | .list items =>
    match textIssues items, modulePaths (items.filterMap textItem?) with
    | [], .ok paths => .ok paths
    | [], .error path => .error [⟨["visible_modules"], .badModulePath path⟩]
    | issues, _ => .error issues
  | _ => .error [⟨["visible_modules"], .notAList⟩]

def truthWords : List String := ["true", "t", "yes", "y", "on", "1"]
def falsityWords : List String := ["false", "f", "no", "n", "off", "0"]

def whole? (mantissa : Int) (places : Nat) : Option Int :=
  let unit := Int.ofNat (Nat.pow 10 places)
  if mantissa % unit = 0 then some (mantissa / unit) else none

def isWord (n : Int) : Bool :=
  decide (-9223372036854775808 ≤ n) && decide (n < 9223372036854775808)

/-- Stands for pydantic's coercion to a truth value, as it is documented: from a word in any mixture
of cases, or from one and zero. Other whole numbers are attempts at one as long as they fit into a
machine word. -/
def readTruth : Property → Except Complaint Bool
  | .bool b => .ok b
  | .number mantissa places =>
    match whole? mantissa places with
    | some n =>
      if n = 0 then .ok false
      else if n = 1 then .ok true
      else if isWord n then .error .unreadableTruth
      else .error .notATruth
    | none => .error .notATruth
  | .text s =>
    let word := String.ofList (s.toList.map Char.toLower)
    if truthWords.contains word then .ok true
    else if falsityWords.contains word then .ok false
    else .error .unreadableTruth
  | _ => .error .notATruth

def readProperty (profile : Profile) (settings : Settings) :
    String × Property → Except (List Issue) Settings
  | (name, value) =>
    match profile, name with
    | .render, "visible_modules" | .signature, "visible_modules" =>
      match readVisible value with
      | .ok paths => .ok { settings with visible := paths }
      | .error issues => .error issues
    | .signature, "extra_hygiene" =>
      match readTruth value with
      | .ok b => .ok { settings with hygiene := b }
      | .error complaint => .error [⟨["extra_hygiene"], complaint⟩]
    | _, _ => .error [⟨[name], .unknownProperty⟩]

def readProperties (profile : Profile) (settings : Settings) :
    List (String × Property) → Settings × List Issue
  | [] => (settings, [])
  | entry :: entries =>
    match readProperty profile settings entry with
    | .ok changed => readProperties profile changed entries
    | .error issues =>
      match readProperties profile settings entries with
      | (final, others) => (final, issues ++ others)

end Settings

/-- The settings that some properties describe, or all that is wrong with them. That unknown
properties are refused and that all issues are collected is pydantic's part, as it is documented. -/
def Profile.read (profile : Profile) : Property → Except SettingsFault Settings
  | .object entries =>
    match Settings.readProperties profile {} entries with
    | (settings, []) => .ok settings
    | (_, issues) => .error ⟨profile, issues.mergeSort Issue.precedes⟩
  | _ => .error ⟨profile, [⟨[], .notAnObject⟩]⟩

def Profile.readOptional (profile : Profile) : Option Property → Except SettingsFault Settings
  | none => .ok {}
  | some properties => profile.read properties

end Anatomy
