import StepBinding.Number
import StepBinding.Text.Quoted

/-! Plain data, as settings and arguments hold it, and the way it is shown in messages. -/

namespace StepBinding

inductive Data
  | null
  | boolean (b : Bool)
  | number (n : Number)
  | string (s : String)
  | list (items : List Data)
  | record (fields : List (String × Data))
deriving Inhabited

namespace Data

/-- A number as shown in messages; doubles keep their point. -/
def shownNumber : Number → String
  | .int n => toString n
  | .float x => match Number.Binary64.parts x with
    | .nan => "nan"
    | .infinite negative => if negative then "-inf" else "inf"
    | .finite .. => Number.Layout.float Number.Layout.plain x

mutual

/-- Data as shown in messages. -/
def shown : Data → String
  | null => "None"
  | boolean b => if b then "True" else "False"
  | number n => shownNumber n
  | string s => Text.Quoted.quoted s
  | list items => "[" ++ ", ".intercalate (shownItems items) ++ "]"
  | record fields => "\x7b" ++ ", ".intercalate (shownFields fields) ++ "\x7d"

def shownItems : List Data → List String
  | [] => []
  | d :: ds => shown d :: shownItems ds

def shownFields : List (String × Data) → List String
  | [] => []
  | (name, d) :: fs => (Text.Quoted.quoted name ++ ": " ++ shown d) :: shownFields fs

end

/-- Whether data counts as something. -/
def isSomething : Data → Bool
  | null => false
  | boolean b => b
  | number n => !n.isZero
  | string s => !s.isEmpty
  | list items => !items.isEmpty
  | record fields => !fields.isEmpty

/-- The field of a name; the last one of that name counts. -/
def field? (fields : List (String × Data)) (name : String) : Option Data :=
  fields.reverse.lookup name

end Data

end StepBinding
