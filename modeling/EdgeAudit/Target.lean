import EdgeAudit.Text.Quoted

namespace EdgeAudit

inductive Target
  | next
  | vercel
  | cloudflare
  | deno
  | auto
  deriving DecidableEq, Repr

namespace Target

def name : Target → String
  | .next => "next"
  | .vercel => "vercel"
  | .cloudflare => "cloudflare"
  | .deno => "deno"
  | .auto => "auto"

def all : List Target :=
  [.next, .vercel, .cloudflare, .deno, .auto]

def ofName? (name : String) : Option Target :=
  all.find? fun t => t.name == name

inductive Error
  | unknown (name : String)
  deriving DecidableEq, Repr

def Error.message : Error → String
  | .unknown name => Text.quoted name ++ " is not a valid EdgeTarget"

def ofName (name : String) : Except Error Target :=
  match ofName? name with
  | some t => .ok t
  | none => .error (.unknown name)

end Target

end EdgeAudit
