/- JSON values, as far as settings and reports need them. Members of an object
   stay in order, repetitions included. -/
namespace PugComponents.Json

/-- A JSON value. -/
inductive Value
  | null
  | bool (b : Bool)
  /-- A number, as written. -/
  | number (text : String)
  /-- A string; none if its escapes name half a surrogate pair, so that it is no text. -/
  | string (value : Option String)
  | array (items : List Value)
  | object (members : List (Option String × Value))

instance : Inhabited Value := ⟨.null⟩

end PugComponents.Json
