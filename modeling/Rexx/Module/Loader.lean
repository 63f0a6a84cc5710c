import Rexx.Module.Declaration
import Rexx.Module.Files

/-!
# `Module.Loader` — loading modules

A specifier is resolved in turn by the resolvers of the host, as a name of the shelf after `registry:`, as a path if
it has a slash, in the directories of the search path, and last as a name of the shelf.
-/

namespace Rexx

/-- What is registered under the names of functions, operations and targets. -/
structure Provisions (σ : Type) where
  functions : Table (Entry (HostFunction σ))
  operations : Table (Entry (HostOperation σ))
  targets : Registry σ

/-- What a file that can be loaded holds: its entry, if it has one. -/
structure SharedObject (σ : Type) where
  detect : Option (Detect σ)

/-- The state of the loader of an interpreter. -/
structure Loader (σ : Type) where
  resolvers : List (Text → Option (Image σ))
  shelf : Table (Option (Detect σ))
  loaded : Table Registration
  seen : Table Text

def Loader.empty {σ : Type} : Loader σ := ⟨[], ∅, ∅, ∅⟩

structure SearchPath (σ : Type) where
  directories : List Text
  files : Files (SharedObject σ)

namespace Loader

variable {σ : Type}

/-! ## Resolution -/

def shelfMark : Text := "registry:"

/-- The directories listed in a text, with colons between them; empty ones do not count. -/
def directoriesOf (s : Text) : List Text := (Text.splitAt ':' (Text.untilNul s)).filter fun d => !d.isEmpty

/-- The image of a file. Files are the same if their paths lead to the same place. -/
def openFile (files : Files (SharedObject σ)) (path : Text) : Except ModuleFault (Image σ) :=
  match files.find? path with
  | none => .error (.notFound path)
  | some .directory => .error (.notLoadable path)
  | some (.file place content) =>
    match content.detect with
    | none => .error (.fileWithoutEntry path)
    | some detect => .ok ⟨"file:" ++ ['/'].intercalate place, some detect⟩

/-- The first path at which there is a file: in each directory the name itself, the name with the ending of a shared
object, and the same with `lib` before it. -/
def searchPaths (sp : SearchPath σ) (spec : Text) : Option Text :=
  let candidates := sp.directories.flatMap fun d =>
    [d ++ "/" ++ spec, d ++ "/" ++ spec ++ ".so", d ++ "/lib" ++ spec ++ ".so"]
  candidates.find? fun path => (sp.files.find? path).isSome

def resolve (l : Loader σ) (sp : SearchPath σ) (spec : Text) : Except ModuleFault (Image σ) :=
  match l.resolvers.findSome? fun r => r spec with
  | some image => .ok image
  | none =>
    if shelfMark.isPrefixOf spec then
      match l.shelf[spec.drop shelfMark.length]? with
      | some detect => .ok ⟨spec, detect⟩
      | none => .error (.unresolved spec)
    else if spec.contains '/' then openFile sp.files spec
    else match searchPaths sp spec with
      | some path => openFile sp.files path
      | none =>
        match l.shelf[spec]? with
        | some detect => .ok ⟨shelfMark ++ spec, detect⟩
        | none => .error (.unresolved spec)

/-! ## Taking over a declaration -/

/-- The part of a text before a wildcard in parentheses; all of it if it has none. -/
def beforeWildcard : Text → Text
  | [] => []
  | c :: s => if "(.*)".toList.isPrefixOf (c :: s) then [] else c :: beforeWildcard s

def functionLead (as : Text) : Text := beforeWildcard (Text.upper as)

def conflict? {α : Type} (kind : Provision) (table : Table (Entry α)) (id : Text) (names : List Text) : Option Conflict :=
  names.findSome? fun name =>
    match table[name]? with
    | some e => if e.owner = id then none else some ⟨kind, name, e.owner⟩
    | none => none

def register {α : Type} (id : Text) (table : Table (Entry α)) (ds : List (Declared α)) (names : List Text) :
    Table (Entry α) :=
  (names.zip ds).foldl (fun t (name, d) => t.insert name ⟨d.code, id, d.desc, d.params⟩) table

/-- Takes over a declaration under the identity `id`: all of it, or nothing. -/
def merge (p : Provisions σ) (d : Declaration σ) (id spec as : Text) :
    Except ModuleFault (Provisions σ × Registration) :=
  match d.target with
  | some t =>
    if !d.functions.isEmpty || !d.operations.isEmpty then .error (.mixed id)
    else
      let name := Text.upper (if as.isEmpty then t.name else as)
      match p.targets.add t name [] id with
      | .ok targets => .ok ({ p with targets }, ⟨id, spec, d.desc, [], [], some name⟩)
      | .error c => .error (.conflict c)
  | none =>
    if d.functions.isEmpty && d.operations.isEmpty then .error (.nothing id)
    else
      let functions := d.functions.map fun f => functionLead as ++ Text.upper f.name
      let operations := d.operations.map fun o => Text.upper o.name
      match conflict? .function p.functions id functions, conflict? .operation p.operations id operations with
      | some c, _ => .error (.conflict c)
      | none, some c => .error (.conflict c)
      | none, none =>
        .ok ({ p with
            functions := register id p.functions d.functions functions
            operations := register id p.operations d.operations operations },
          ⟨id, spec, d.desc, functions, operations, none⟩)

/-! ## Loading -/

structure State (σ : Type) where
  loader : Loader σ
  provisions : Provisions σ
  host : σ

def known? (l : Loader σ) (image : Image σ) : Option Registration :=
  l.seen[image.id]?.bind fun id => l.loaded[id]?

def accept (s : State σ) (image : Image σ) (d : Declaration σ) (spec as : Text) :
    Except ModuleFault (Registration × State σ) :=
  let id := if d.id.isEmpty then image.id else d.id
  let seen := s.loader.seen.insert image.id id
  match s.loader.loaded[id]? with
  | some reg => .ok (reg, { s with loader := { s.loader with seen } })
  | none =>
    match merge s.provisions d id spec as with
    | .error f => .error f
    | .ok (provisions, reg) =>
      .ok (reg, { s with provisions, loader := { s.loader with seen, loaded := s.loader.loaded.insert id reg } })

def load (s : State σ) (sp : SearchPath σ) (spec as : Text) : Except ModuleFault Registration × State σ :=
  match s.loader.resolve sp spec with
  | .error f => (.error f, s)
  | .ok image =>
    match s.loader.known? image with
    | some reg => (.ok reg, s)
    | none =>
      match image.detect with
      | none => (.error (.withoutEntry spec), s)
      | some detect =>
        match detect s.host with
        | .error (.refused message) host => (.error (.refused message), { s with host })
        | .error (.exception message) host => (.error (.detectionFailed spec message), { s with host })
        | .ok d host =>
          match accept { s with host } image d spec as with
          | .error f => (.error f, { s with host })
          | .ok (reg, s) => (.ok reg, s)

end Loader

end Rexx
