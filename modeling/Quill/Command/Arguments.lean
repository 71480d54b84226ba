/-!
# Arguments

A command line is a list of arguments: flags, by a letter behind one dash or a name behind two,
and words.  Letters can share a dash.  The value of a flag stands behind it, after an equals sign
if one is there, or is the next argument.  Two dashes alone end the flags.
-/

namespace Quill

/-- What a flag does. -/
inductive FlagKind where
  | switch
  | valued
  /-- Nothing behind the flag matters. -/
  | final
deriving DecidableEq

/-- A flag that a command takes. -/
structure Flag where
  letter : Char
  name : String
  kind : FlagKind
deriving DecidableEq

/-- A flag that was given, by its name. -/
structure Given where
  name : String
  value : Option String
deriving DecidableEq

/-- What arguments say. -/
structure Scanned where
  given : List Given
  words : List String
deriving DecidableEq

namespace Flag

/-- Whether an argument is not taken as a word or a value. -/
def isDashed (argument : String) : Bool :=
  argument.front? == some '-' && argument != "-"

/-- The flags of an argument; the last one may still lack its value. -/
structure Group where
  given : List Given
  pending : Option String

/-- The flags behind one dash. -/
def letters? (flags : List Flag) : List Char → Option Group
  | [] => some ⟨[], none⟩
  | c :: rest =>
      match flags.find? (·.letter = c) with
      | none => none
      | some f =>
          match f.kind with
          | .switch =>
              (letters? flags rest).map fun g => { g with given := ⟨f.name, none⟩ :: g.given }
          | .final => some ⟨[⟨f.name, none⟩], none⟩
          | .valued =>
              match rest with
              | [] => some ⟨[], some f.name⟩
              | '=' :: value => some ⟨[⟨f.name, some (String.ofList value)⟩], none⟩
              | value => some ⟨[⟨f.name, some (String.ofList value)⟩], none⟩

/-- The flag behind two dashes. -/
def long? (flags : List Flag) (s : List Char) : Option Group :=
  let (name, value) := s.span (· ≠ '=')
  match flags.find? (·.name.toList = name) with
  | none => none
  | some f =>
      match f.kind, value with
      | .valued, [] => some ⟨[], some f.name⟩
      | .valued, _ :: value => some ⟨[⟨f.name, some (String.ofList value)⟩], none⟩
      | _, [] => some ⟨[⟨f.name, none⟩], none⟩
      | _, _ :: _ => none

/-- The flags of a dashed argument. -/
def group? (flags : List Flag) (argument : String) : Option Group :=
  match argument.toList with
  | '-' :: '-' :: name => long? flags name
  | _ :: letters => letters? flags letters
  | [] => none

/-- Whether a flag that ends everything was given. -/
def endsHere (flags : List Flag) (given : List Given) : Bool :=
  given.any fun g => flags.any fun f => f.name == g.name && f.kind == .final

/-- The mark that ends the flags. -/
def endMark : String := "--"

/-- Read arguments.  All words are kept, or everything from the first word on if the reading
stops there. -/
def scan? (flags : List Flag) (stopsAtWord : Bool) : List String → Option Scanned
  | [] => some ⟨[], []⟩
  | argument :: rest =>
      if stopsAtWord && (argument == endMark || !isDashed argument) then
        some ⟨[], argument :: rest⟩
      else if argument = endMark then some ⟨[], rest⟩
      else if !isDashed argument then
        (scan? flags stopsAtWord rest).map fun s => { s with words := argument :: s.words }
      else
        match group? flags argument with
        | none => none
        | some ⟨given, none⟩ =>
            if endsHere flags given then some ⟨given, []⟩
            else (scan? flags stopsAtWord rest).map fun s => { s with given := given ++ s.given }
        | some ⟨given, some name⟩ =>
            match rest with
            | [] => none
            | value :: rest =>
                if isDashed value then none
                else
                  (scan? flags stopsAtWord rest).map fun s =>
                    { s with given := given ++ ⟨name, some value⟩ :: s.given }

end Flag

namespace Scanned

/-- Whether a flag was given. -/
def has (s : Scanned) (name : String) : Bool :=
  s.given.any (·.name == name)

/-- The value given to a flag. -/
def value? (s : Scanned) (name : String) : Option String :=
  (s.given.find? (·.name == name)).bind (·.value)

/-- No flag may be given twice. -/
def isValid (s : Scanned) : Bool :=
  (s.given.map (·.name)).Nodup

end Scanned

end Quill
