namespace Anatomy

inductive Head
  | function
  | assign
  | arrow
  | call
  | tuple
  | block
  | whereClause
  | ascription
  | curly
  | parameters
  | keyword
  | splat
  | dot
  | subtype
  | supertype
  | comparison
  deriving DecidableEq, Inhabited

namespace Head

def all : List Head :=
  [.function, .assign, .arrow, .call, .tuple, .block, .whereClause, .ascription, .curly,
    .parameters, .keyword, .splat, .dot, .subtype, .supertype, .comparison]

def text : Head → String
  | .function => "function"
  | .assign => "="
  | .arrow => "->"
  | .call => "call"
  | .tuple => "tuple"
  | .block => "block"
  | .whereClause => "where"
  | .ascription => "::"
  | .curly => "curly"
  | .parameters => "parameters"
  | .keyword => "kw"
  | .splat => "..."
  | .dot => "."
  | .subtype => "<:"
  | .supertype => ">:"
  | .comparison => "comparison"

def ofText? (s : String) : Option Head :=
  all.find? fun h => h.text == s

theorem ofText?_text (h : Head) : ofText? h.text = some h := by
  cases h <;> decide

theorem text_of_ofText? {s : String} {h : Head} (hs : ofText? s = some h) : h.text = s := by
  simpa using List.find?_some hs

def label : Head → String
  | .function => "FunctionDef"
  | .assign => "Assign"
  | .arrow => "Arrow"
  | .call => "Call"
  | .tuple => "TupleExpr"
  | .block => "Block"
  | .whereClause => "Where"
  | .ascription => "TypeAssert"
  | .curly => "Curly"
  | .parameters => "Parameters"
  | .keyword => "Kw"
  | .splat => "Splat"
  | .dot => "Dot"
  | .subtype => "Subtype"
  | .supertype => "Supertype"
  | .comparison => "Comparison"

end Head

/-- The three ways to write a definition: `function f(x) ... end`, `f(x) = ...` and `x -> ...`. -/
inductive Form
  | long
  | short
  | arrow
  deriving DecidableEq, Inhabited

def Form.head : Form → Head
  | .long => .function
  | .short => .assign
  | .arrow => .arrow

def Head.form? : Head → Option Form
  | .function => some .long
  | .assign => some .short
  | .arrow => some .arrow
  | _ => none

theorem Head.form?_head (form : Form) : form.head.form? = some form := by
  cases form <;> rfl

theorem Head.head_of_form? {head : Head} {form : Form} (h : head.form? = some form) :
    form.head = head := by
  cases head <;> simp_all [Head.form?] <;> subst h <;> rfl

end Anatomy
