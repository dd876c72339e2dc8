import VectorWrap.Files.System

/-!
# File trees

Directories and files by the names that lead to them from the root. A path is walked segment by
segment: before every step what has been reached must be a directory, also before a step that leads
nowhere.

There are no links and no permissions, and a name is any text without a slash. Of the ways in which
a path can fail, those that a user is told of are kept apart (`FileError`); any other is a cause in
words.
-/

namespace VectorWrap

/-- The names of the directories down to a place, and of the place itself. -/
abbrev Place := List Text

/-- What is at a place. -/
inductive Node where
  | dir
  /-- A file, with its text if what it holds is one. -/
  | file (text? : Option Text)
  deriving DecidableEq, Repr

/-- Directories and files. -/
structure FileTree where
  nodes : List (Place × Node)
  /-- Where relative paths begin. -/
  here : Place
  deriving Repr

namespace FileTree

/-! ### Places -/

/-- What is at a place. The root is always there. -/
def node? (t : FileTree) (place : Place) : Option Node :=
  if place.isEmpty then some .dir else t.nodes.lookup place

/-- Puts something at a place. -/
def put (t : FileTree) (place : Place) (node : Node) : FileTree :=
  { t with nodes := (place, node) :: t.nodes.filter (·.1 != place) }

/-- Taking out one place leaves what is at another. -/
theorem lookup_filter_ne {place other : Place} (nodes : List (Place × Node)) (h : other ≠ place) :
    (nodes.filter (·.1 != place)).lookup other = nodes.lookup other := by
  induction nodes with
  | nil => rfl
  | cons n ns ih =>
    obtain ⟨q, v⟩ := n
    by_cases hq : q = place
    · have ho : (other == place) = false := by simp [h]
      simp [List.lookup_cons, hq, ho, ih]
    · cases hb : other == q <;> simp [List.lookup_cons, hq, hb, ih]

theorem node?_put_self (t : FileTree) {place : Place} (node : Node) (h : place ≠ []) :
    (t.put place node).node? place = some node := by
  simp [node?, put, h]

/-- What has been put at one place does not change what is at another. -/
theorem node?_put_ne (t : FileTree) {place other : Place} (node : Node) (h : other ≠ place) :
    (t.put place node).node? other = t.node? other := by
  have hb : (other == place) = false := by simp [h]
  simp [node?, put, List.lookup_cons, hb, lookup_filter_ne t.nodes h]

/-- A tree with nothing but the directories down to `here`. -/
def bare (here : Place) : FileTree :=
  ⟨(List.range here.length).map fun n => (here.take (n + 1), .dir), here⟩

/-! ### Walking -/

/-- A segment that leads one directory up. -/
def isUp (segment : Text) : Bool :=
  segment == ['.', '.']

/-- Where segments lead to from a place. -/
def walk (t : FileTree) (place : Place) : List Text → Except FileError Place
  | [] => .ok place
  | s :: rest =>
      match t.node? place with
      | none => .error .notFound
      | some (.file _) => .error .notADirectory
      | some .dir =>
          if Path.isFiller s then t.walk place rest
          else if isUp s then t.walk place.dropLast rest
          else t.walk (place ++ [s]) rest

/-- Where the path begins. -/
def startOf (t : FileTree) (p : Path) : Place :=
  if p.isAbsolute then [] else t.here

/-- Where a path leads to, be there anything or not. -/
def locate (t : FileTree) (p : Path) : Except FileError Place :=
  if p.text.isEmpty then .error .notFound else t.walk (t.startOf p) p.segments

/-- There is a directory at the path. -/
def isDir (t : FileTree) (p : Path) : Bool :=
  match t.locate p with
  | .ok place => t.node? place == some .dir
  | .error _ => false

/-- The place that something new at the given segments would have; `special` is the error for a last
segment that is no name. -/
def placeFor (t : FileTree) (p : Path) (segments : List Text) (special : FileError) :
    Except FileError Place :=
  match segments.getLast? with
  | none => .error special
  | some name => do
      let dir ← t.walk (t.startOf p) segments.dropLast
      match t.node? dir with
      | none => .error .notFound
      | some (.file _) => .error .notADirectory
      | some .dir =>
          if Path.isFiller name || isUp name then .error special else .ok (dir ++ [name])

/-! ### Reading -/

/-- What is in the file at a place. -/
def contentAt (t : FileTree) (place : Place) : Except FileError (Option Text) :=
  match t.node? place with
  | none => .error .notFound
  | some .dir => .error .isADirectory
  | some (.file text?) => .ok text?

/-- The text of a file. -/
def read (t : FileTree) (p : Path) : Except FileError Text := do
  match ← t.contentAt (← t.locate p) with
  | none => .error .notText
  | some text => .ok text

/-! ### Changes -/

/-- Makes a directory in one that is there. -/
def makeDir (t : FileTree) (p : Path) : Except FileError FileTree :=
  if p.text.isEmpty then .error .notFound
  else do
    let place ← t.placeFor p ((p.segments.reverse.dropWhile List.isEmpty).reverse) .occupied
    match t.node? place with
    | some _ => .error .occupied
    | none => .ok (t.put place .dir)

/-- Makes a directory; one that is there already will do. -/
def ensureDir (t : FileTree) (p : Path) : Except FileError FileTree :=
  match t.makeDir p with
  | .ok t' => .ok t'
  | .error e => if t.isDir p then .ok t else .error e

/-- Makes a directory and those it lies in, where there are none. Each step goes one directory up,
`bound` of them at most. What has been made stays also when there is an error in the end. -/
def makeDirsWithin (bound : Nat) (p : Path) (t : FileTree) : Except FileError Unit × FileTree :=
  if p.text.isEmpty then (.ok (), t)
  else
    match t.ensureDir p with
    | .ok t' => (.ok (), t')
    | .error .notFound =>
        match bound, p.parent? with
        | n + 1, some dir =>
            match makeDirsWithin n dir t with
            | (.error e, t') => (.error e, t')
            | (.ok (), t') =>
                match t'.ensureDir p with
                | .ok t'' => (.ok (), t'')
                | .error e => (.error e, t')
        | _, _ => (.error .notFound, t)
    | .error e => (.error e, t)

/-- Makes a directory and those it lies in. A path is longer than those of the directories it lies
in, so its length bounds their number. -/
def makeDirs (p : Path) (t : FileTree) : Except FileError Unit × FileTree :=
  makeDirsWithin p.text.length p t

/-- The place of a file that is to be written. -/
def placeToWrite (t : FileTree) (p : Path) : Except FileError Place :=
  if p.text.isEmpty then .error .notFound
  else do
    let place ← t.placeFor p p.segments .isADirectory
    match t.node? place with
    | some .dir => .error .isADirectory
    | _ => .ok place

/-- Writes a file. -/
def write (p : Path) (text : Text) (t : FileTree) : Except FileError FileTree := do
  let place ← t.placeToWrite p
  pure (t.put place (.file (some text)))

/-- Writes what is in one file to another, which is emptied before the first is read. -/
def copy (source target : Path) (t : FileTree) : Except FileError FileTree := do
  let from' ← t.locate source
  let _ ← t.contentAt from'
  let to' ← t.placeToWrite target
  let emptied := t.put to' (.file (some []))
  let content ← emptied.contentAt from'
  pure (emptied.put to' (.file content))

/-- The outcome of a change that does nothing where it fails. -/
def orUnchanged (t : FileTree) : Except FileError FileTree → Except FileError Unit × FileTree
  | .ok t' => (.ok (), t')
  | .error e => (.error e, t)

/-- Carries out an action. -/
def perform (t : FileTree) : FileAction → Except FileError Unit × FileTree
  | .makeDirs p => t.makeDirs p
  | .write p text => t.orUnchanged (t.write p text)
  | .copy a b => t.orUnchanged (t.copy a b)

/-- The files of a tree. -/
def system : FileSystem (StateM FileTree) where
  read p := fun t => (t.read p, t)
  perform a := fun t => t.perform a

end FileTree

end VectorWrap
