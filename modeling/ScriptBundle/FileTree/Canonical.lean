import ScriptBundle.FileTree.Basic

/-! Following a path. The names of a path are taken from left to right against the tree: `..` leads
out of the place reached so far, a link is replaced by what it names as soon as it is met, and every
place on the way has to exist. -/
namespace ScriptBundle
namespace FileTree

/-- The longest path that can be reached, and the longest name, in bytes. -/
def pathLimit : Nat := 4096
def nameLimit : Nat := 255

/-- How many links one path may lead through. -/
def linkLimit : Nat := 40

/-- The names of a path as they are spelt, from the root or from where the path is read. -/
def steps (p : Path) : List Name := pieces Name.slash p.bytes

/-- What a name leads to from a place: the place of a file or directory, or a link's target. -/
inductive Step
  | place (l : Location)
  | link (target : Path)

/-- Whether what was reached has to be a directory for the names to go on: the next one is `..`, or
nothing but idle names follows. -/
def wantsDirectory : List Name → Bool
  | [] => false
  | name :: rest => name == Name.up || name.isIdle && (rest.isEmpty || wantsDirectory rest)

def isLink (tree : FileTree) (l : Location) : Bool :=
  match tree.node? l with
  | some (.link _) => true
  | _ => false

/-- One name further. What has to be a directory is asked for by a path with a separator at its end,
which counts towards the limit. -/
def step (tree : FileTree) (here : Location) (name : Name) (rest : List Name) : Except Fault Step :=
  let l := here ++ [name]
  let ending := (wantsDirectory rest && !tree.isLink l).toNat
  if pathLimit ≤ l.width + ending then .error .nameTooLong
  else if !tree.isDirectory here then .error .notADirectory
  else if nameLimit < name.length then .error .nameTooLong
  else match tree.node? l with
    | none => .error .missing
    | some (.link target) => .ok (.link target)
    | some _ => .ok (.place l)

/-- The walk along names, with `jump` to continue behind a link. -/
def walkWith (tree : FileTree) (jump : Location → List Name → Except Fault Location) :
    Location → List Name → Except Fault Location
  | here, [] => .ok here
  | here, name :: rest =>
    if name = Name.up then
      if tree.isDirectory here then walkWith tree jump here.dropLast rest else .error .notADirectory
    else if name.isIdle then
      if rest = [] && !tree.isDirectory here then .error .notADirectory
      else walkWith tree jump here rest
    else
      match step tree here name rest with
      | .error fault => .error fault
      | .ok (.place l) => walkWith tree jump l rest
      | .ok (.link target) =>
        jump (if target.isAbsolute then [] else here) (steps target ++ rest)

def walk (tree : FileTree) : Nat → Location → List Name → Except Fault Location
  | 0 => walkWith tree fun _ _ => .error .linkLoop
  | links + 1 => walkWith tree (walk tree links)

/-- The place to which a path leads. -/
def locate (tree : FileTree) (p : Path) : Except Fault Location :=
  if p.bytes.contains 0 then .error .zeroByte
  else if p.bytes = [] then .error .missing
  else walk tree linkLimit (if p.isAbsolute then [] else tree.workingDirectory) (steps p)

/-- The absolute path, free of links, `.` and `..`, of the place to which a path leads. -/
def canonicalize (tree : FileTree) (p : Path) : Except Fault Path :=
  (tree.locate p).map Location.path

def read (tree : FileTree) (p : Path) : Except Fault (List UInt8) :=
  match tree.locate p with
  | .error fault => .error fault
  | .ok l =>
    match tree.node? l with
    | some (.file content) => .ok content
    | some _ => .error .isADirectory
    | none => .error .missing

def readText (tree : FileTree) (p : Path) : Except Fault Text :=
  match tree.read p with
  | .error fault => .error fault
  | .ok content =>
    match Utf8.decode? content with
    | some text => .ok text
    | none => .error .notText

end FileTree
end ScriptBundle
