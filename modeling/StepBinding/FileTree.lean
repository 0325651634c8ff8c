import StepBinding.Pattern

/-! Files and a working directory. A path is relative or absolute and keeps its `..`
parts; looking it up goes through directories one part after the other, and through symbolic
links, and leads to a place, the parts from the top down. Only files and links are stored: a
directory is where these are, where the working directory is, or one that was made. -/

namespace StepBinding

structure Path where
  parts : List String
  isAbsolute : Bool := false
deriving DecidableEq, Repr, Inhabited

namespace Path

/-- The parts of a text between slashes; `part` holds the characters of the first one so far, the
last of them first. -/
def cutFrom (part : List Char) : List Char → List String
  | [] => [String.ofList part.reverse]
  | '/' :: cs => String.ofList part.reverse :: cutFrom [] cs
  | c :: cs => cutFrom (c :: part) cs

def cut (text : String) : List String := cutFrom [] text.toList

/-- A path as it is spelled; empty parts and single dots mean nothing. -/
def ofText (text : String) : Path :=
  { parts := (cut text).filter fun p => p != "" && p != "."
    isAbsolute := text.startsWith "/" }

def text (p : Path) : String :=
  let joined := "/".intercalate p.parts
  if p.isAbsolute then "/" ++ joined else if p.parts.isEmpty then "." else joined

def join (p q : Path) : Path := if q.isAbsolute then q else { p with parts := p.parts ++ q.parts }

def child (p : Path) (name : String) : Path := { p with parts := p.parts ++ [name] }

def parent (p : Path) : Path := { p with parts := p.parts.dropLast }

def name (p : Path) : String := p.parts.getLast?.getD ""

/-- A file name up to the last dot that has something before and after it. -/
def stemOf (name : String) : String :=
  let cs := name.toList.reverse
  let ending := cs.takeWhile (· != '.')
  let rest := cs.drop (ending.length + 1)
  if ending.isEmpty || rest.isEmpty then name else String.ofList rest.reverse

/-- The path with the ending of its name changed; `none` if that is no ending. -/
def withSuffix? (p : Path) (suffix : String) : Option Path :=
  if p.parts.isEmpty || suffix == "." || suffix.toList.contains '/' then none
  else some (p.parent.child (stemOf p.name ++ suffix))

/-- The order of paths by their parts. -/
def before : List String → List String → Bool
  | [], _ :: _ => true
  | p :: ps, q :: qs => decide (p < q) || (p == q && before ps qs)
  | _, [] => false

/-- The parts after those of a directory. -/
def below (p root : Path) : Path := { parts := p.parts.drop root.parts.length }

end Path

/-- Why a file operation fails. -/
inductive FileError
  | missing
  | exists (path : Path)
  | notDirectory
  | isDirectory
  /-- Links that lead through too many other ones. -/
  | linkLoop
deriving DecidableEq, Repr

/-- Files, links and made directories by their places. -/
structure FileTree where
  /-- The place of the working directory. -/
  root : List String := []
  files : List (List String × String) := []
  links : List (List String × Path) := []
  made : List (List String) := []

namespace FileTree

def content? (t : FileTree) (place : List String) : Option String := t.files.lookup place

def isFileAt (t : FileTree) (place : List String) : Bool := (t.content? place).isSome

def isDirectoryAt (t : FileTree) (place : List String) : Bool :=
  place.isPrefixOf t.root || t.made.contains place
    || t.files.any (fun f => place.isPrefixOf f.1 && place.length < f.1.length)
    || t.links.any fun l => place.isPrefixOf l.1 && place.length < l.1.length

/-- The place that a path starts from, as seen from a directory. -/
def originFrom (here : List String) (p : Path) : List String := if p.isAbsolute then [] else here

def origin (t : FileTree) (p : Path) : List String := originFrom t.root p

/-- Goes through directories along some parts; `through` goes on from a link. A link at the end is
gone through only if it is to be followed. -/
def walkWith (t : FileTree) (follow : Bool)
    (through : List String → List String → Except FileError (List String)) (here : List String) :
    List String → Except FileError (List String)
  | [] => .ok here
  | part :: parts =>
    if !t.isDirectoryAt here then .error (if t.isFileAt here then .notDirectory else .missing)
    else if part = "" || part = "." then walkWith t follow through here parts
    else if part = ".." then walkWith t follow through here.dropLast parts
    else if parts.isEmpty && !follow then .ok (here ++ [part])
    else match t.links.lookup (here ++ [part]) with
      | none => walkWith t follow through (here ++ [part]) parts
      | some target => through (originFrom here target) (target.parts ++ parts)

/-- Goes along some parts and through no more than a number of links. -/
def walk (t : FileTree) (follow : Bool) :
    Nat → List String → List String → Except FileError (List String)
  | 0 => t.walkWith follow fun _ _ => .error .linkLoop
  | n + 1 => t.walkWith follow (walk t follow n)

/-- No path goes through more links than these. -/
def maxLinks : Nat := 40

/-- Where a path leads, whether something is there or not. -/
def place (t : FileTree) (p : Path) : Except FileError (List String) :=
  t.walk true maxLinks (t.origin p) p.parts

def place? (t : FileTree) (p : Path) : Option (List String) := (t.place p).toOption

/-- Where some parts lead if every `..` takes back the part before it, whatever is there; `through`
says where a link leads. -/
def resolveWith? (links : List (List String × Path))
    (through : List String → List String → Option (List String)) (here : List String) :
    List String → Option (List String)
  | [] => some here
  | part :: parts =>
    if part = "" || part = "." then resolveWith? links through here parts
    else if part = ".." then resolveWith? links through here.dropLast parts
    else match links.lookup (here ++ [part]) with
      | none => resolveWith? links through (here ++ [part]) parts
      | some target => do
        resolveWith? links through (← through (originFrom here target) target.parts) parts

/-- Where some parts lead, through links inside of links up to a depth. -/
def resolvedFrom? (links : List (List String × Path)) :
    Nat → List String → List String → Option (List String)
  | 0 => resolveWith? links fun _ _ => none
  | n + 1 => resolveWith? links (resolvedFrom? links n)

/-- The place that a path is resolved to; `none` if a link leads back to itself. -/
def resolved? (t : FileTree) (p : Path) : Option (List String) :=
  resolvedFrom? t.links t.links.length (t.origin p) p.parts

def isFile (t : FileTree) (p : Path) : Bool := (t.place? p).any t.isFileAt

def isDirectory (t : FileTree) (p : Path) : Bool := (t.place? p).any t.isDirectoryAt

def exists_ (t : FileTree) (p : Path) : Bool := t.isFile p || t.isDirectory p

/-- What is found under a name exactly as it is spelled: whether it is a directory. -/
def find? (t : FileTree) (spelled : String) : Option Bool := do
  if spelled.isEmpty then none
  let place ← t.place? { parts := Path.cut spelled, isAbsolute := spelled.startsWith "/" }
  if t.isFileAt place then return false
  else if t.isDirectoryAt place then return true
  else none

def read (t : FileTree) (p : Path) : Except FileError String :=
  match t.place p with
  | .error e => .error e
  | .ok place => match t.content? place with
    | some text => .ok text
    | none => .error (if t.isDirectoryAt place then .isDirectory else .missing)

/-- Files with one of them changed or added. -/
def put (place : List String) (text : String) :
    List (List String × String) → List (List String × String)
  | [] => [(place, text)]
  | f :: fs => if f.1 = place then (place, text) :: fs else f :: put place text fs

/-- A change of the tree; what was done before it fails stays done. -/
abbrev Change := EStateM FileError FileTree

/-- A whole change or none. -/
def change (f : FileTree → Except FileError FileTree) : Change Unit := fun t =>
  match f t with
  | .ok t => .ok () t
  | .error e => .error e t

/-- The tree with a file written in a directory that exists. -/
def withFile (t : FileTree) (p : Path) (text : String) : Except FileError FileTree := do
  let place ← t.place p
  if t.isDirectoryAt place then throw .isDirectory
  return { t with files := put place text t.files }

/-- The place where the last part of a path stands, be it a link. -/
def slot (t : FileTree) (p : Path) : Except FileError (List String) :=
  t.walk false maxLinks (t.origin p) p.parts

/-- The tree with a directory made inside one that exists. -/
def withDirectory (t : FileTree) (p : Path) : Except FileError FileTree := do
  let place ← t.slot p
  if t.isDirectoryAt place || t.isFileAt place || (t.links.lookup place).isSome then
    throw (.exists p)
  return { t with made := place :: t.made }

/-- Writes a file. -/
def write (p : Path) (text : String) : Change Unit := change (withFile · p text)

/-- Makes a directory inside one that exists; if it is there already, that is as good. -/
def makeOne (p : Path) : Change Unit :=
  change fun t => if t.isDirectory p then .ok t else t.withDirectory p

/-- Whether something on the way to where a path leads is missing. -/
def isCutOff (t : FileTree) (p : Path) : Bool :=
  match t.slot p with
  | .error .missing => true
  | _ => false

/-- Makes a directory. If something on the way to it is missing, the path without its last part is
made first, so the directory before a `..` is made too. -/
def makeDirectory (p : Path) : Change Unit := do
  if _h : p.parts ≠ [] then
    if (← get).isCutOff p then makeDirectory p.parent
  makeOne p
termination_by p.parts.length
decreasing_by
  have := List.length_pos_iff.2 _h
  simp only [Path.parent, List.length_dropLast]
  omega

/-- The places that the tree knows of. -/
def known (t : FileTree) : List (List String) :=
  t.root :: t.made ++ t.files.map (·.1) ++ t.links.map (·.1)

/-- The names in a directory. -/
def names (t : FileTree) (place : List String) : List String :=
  (t.known.filterMap fun q => if place.isPrefixOf q then q[place.length]? else none).eraseDups

/-- The directories from a place down, by the parts after it. -/
def directories (t : FileTree) (place : List String) : List (List String) :=
  let below := (t.known.filter place.isPrefixOf).flatMap fun q =>
    let rest := q.drop place.length
    (List.range (rest.length + 1)).map rest.take
  below.eraseDups.filter fun rest => t.isDirectoryAt (place ++ rest)

/-- The paths from a directory on that have the parts of a pattern. -/
def select (t : FileTree) (p : Path) : List Pattern.Part → List Path
  | [] | .here :: _ => [p]
  | .name text :: parts =>
    let q := p.child text
    if (if parts.isEmpty then t.exists_ q else t.isDirectory q) then t.select q parts else []
  | .shape pieces :: parts =>
    let isMeant (name : String) : Bool :=
      Pattern.fits pieces name.toList && (parts.isEmpty || t.isDirectory (p.child name))
    let found := ((t.place? p).map t.names).getD []
    (found.filter isMeant).flatMap fun name => t.select (p.child name) parts
  | .deep :: parts =>
    let found := ((t.place? p).map t.directories).getD []
    found.flatMap fun rest => t.select (p.join { parts := rest }) parts

/-- The parts of a pattern as it is spelled. -/
def partsOf (pattern : String) : Except Pattern.Fault (List Pattern.Part) :=
  if pattern.startsWith "/" then .error .absolute
  else ((Path.ofText pattern).parts.mapM Pattern.Part.ofText).map fun parts =>
    if pattern.endsWith "/" then parts ++ [.here] else parts

/-- The files at any depth below a directory that a pattern means. -/
def search (t : FileTree) (directory : Path) (pattern : String) : Except Pattern.Fault (List Path) :=
  (partsOf pattern).map fun parts => (t.select directory (.deep :: parts)).filter t.isFile

/-- Paths in order, each one once. -/
def sorted (ps : List Path) : List Path :=
  ps.eraseDups.mergeSort fun p q => !Path.before q.parts p.parts

end FileTree

end StepBinding
