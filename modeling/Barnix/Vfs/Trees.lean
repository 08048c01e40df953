import Barnix.Vfs.Files
/-!
# Trees of files

The abstract engine: every selection of the disk layer holds a volume, which is
a tree of files and directories, or none. An operation that the tree allows may
still be refused (no free block, a full directory); it then changes nothing.
-/

namespace Barnix.Vfs

inductive Node where
  | dir
  | file (executable : Bool) (data : List UInt8)
deriving DecidableEq

/-- The files of a volume by their path components. The root is a directory. -/
structure Tree where
  entries : List (List Name × Node)

namespace Tree

def get (t : Tree) (p : List Name) : Option Node :=
  if p = [] then some .dir else (t.entries.find? (·.1 == p)).map (·.2)

def put (t : Tree) (p : List Name) (n : Node) : Tree := ⟨(p, n) :: t.entries.filter (·.1 != p)⟩

def del (t : Tree) (p : List Name) : Tree := ⟨t.entries.filter (·.1 != p)⟩

/-- Everything at or below `a` goes to `b`. -/
def move (t : Tree) (a b : List Name) : Tree :=
  ⟨t.entries.map fun e => if a.isPrefixOf e.1 then (b ++ e.1.drop a.length, e.2) else e⟩

/-- `p` is a directory with nothing in it. -/
def emptyDir (t : Tree) (p : List Name) : Bool :=
  t.get p == some .dir && t.entries.all fun e => !(p.isPrefixOf e.1 && e.1 != p)

/-- Follows path components from the directory `p`. -/
def follow (t : Tree) : List Name → List Name → Option (List Name)
  | p, [] => some p
  | p, part :: parts =>
    if maxName < part.length then none
    else if part = dot then t.follow p parts
    else if t.get p ≠ some .dir then none
    else if part = dotdot then t.follow p.dropLast parts
    else if (t.get (p ++ [part])).isSome then t.follow (p ++ [part]) parts
    else none

end Tree

/-- `probe` is what `disk_select` leaves selected for a device name, and whether
it succeeds; `refuses` says which changes are refused, counted by `clock`. -/
structure Trees where
  volumes : DiskSelection → Option Tree
  probe : Bool → Name → DiskSelection → DiskSelection × Bool
  selected : DiskSelection
  mounted : Bool
  cwd : List Name
  refuses : Nat → Bool
  clock : Nat

namespace Trees

def tree (s : Trees) : Tree := (s.volumes s.selected).getD ⟨[]⟩

def ready (s : Trees) : Bool := s.mounted && (s.volumes s.selected).isSome

/-- The place a path name leads to. -/
def find (s : Trees) (name : Name) : Option (List Name) :=
  if name = [] ∨ !s.ready then none
  else s.tree.follow (if name.head? = some slash then [] else s.cwd) (components name)

def findNode (s : Trees) (name : Name) : Option Node := (s.find name).bind s.tree.get

/-- Changes the selected volume to `next`; -1 without a next tree or when the
change is refused. -/
def change (s : Trees) (next : Option Tree) : Int × Trees :=
  match next with
  | none => (-1, s)
  | some t =>
    if !s.ready || s.refuses s.clock then (-1, { s with clock := s.clock + 1 })
    else (0, { s with clock := s.clock + 1, volumes := Function.update s.volumes s.selected (some t) })

/-- A new entry of the working directory. -/
def created (s : Trees) (name : Name) (n : Node) : Option Tree :=
  if validName name ∧ s.tree.get s.cwd = some .dir ∧ s.tree.get (s.cwd ++ [name]) = none then
    some (s.tree.put (s.cwd ++ [name]) n)
  else none

/-- The content `data` for the entry `name` of the directory `p`. -/
def written (s : Trees) (p : List Name) (name : Name) (data : List UInt8) : Option Tree :=
  if validName name ∧ data.length ≤ (12 + 256) * 1024 ∧ s.tree.get p = some .dir then
    match s.tree.get (p ++ [name]) with
    | none => some (s.tree.put (p ++ [name]) (.file false data))
    | some (.file x _) => some (s.tree.put (p ++ [name]) (.file x data))
    | some .dir => none
  else none

/-- `engine_write`, which takes a path. -/
def writtenPath (s : Trees) (name : Name) (data : List UInt8) : Option Tree :=
  if name.contains slash then
    if pathCap ≤ (parentName name).length then none
    else (s.find (parentName name)).bind fun p => s.written p (baseName name) data
  else s.written s.cwd name data

/-- `engine_append`, which takes an entry name and leaves a missing one to `engine_write`. -/
def appended (s : Trees) (name : Name) (data : List UInt8) : Option Tree :=
  if s.tree.get s.cwd ≠ some .dir ∨ name = dot ∨ name = dotdot then none
  else
    match s.tree.get (s.cwd ++ [name]) with
    | none => s.writtenPath name data
    | some .dir => none
    | some (.file x old) =>
      if (12 + 256) * 1024 < old.length + data.length then none
      else some (s.tree.put (s.cwd ++ [name]) (.file x (old ++ data)))

def copied (s : Trees) (source dest : Name) : Option Tree :=
  match s.findNode source with
  | some (.file _ data) =>
    if s.tree.get s.cwd ≠ some .dir ∨ dest = dot ∨ dest = dotdot ∨ (s.tree.get (s.cwd ++ [dest])).isSome then none
    else s.writtenPath dest data
  | _ => none

def renamed (s : Trees) (source dest : Name) : Option Tree :=
  if validName source ∧ validName dest ∧ s.tree.get s.cwd = some .dir ∧
      (s.tree.get (s.cwd ++ [source])).isSome ∧ s.tree.get (s.cwd ++ [dest]) = none then
    some (s.tree.move (s.cwd ++ [source]) (s.cwd ++ [dest]))
  else none

def removed (s : Trees) (name : Name) (dir : Bool) : Option Tree :=
  let ok := if dir then s.tree.emptyDir (s.cwd ++ [name]) else
    match s.tree.get (s.cwd ++ [name]) with
    | some (.file _ _) => true
    | _ => false
  if validName name ∧ s.tree.get s.cwd = some .dir ∧ ok then some (s.tree.del (s.cwd ++ [name])) else none

def executable (s : Trees) (name : Name) : Option Tree :=
  (s.find name).bind fun p => (s.tree.get p).map fun
    | .dir => s.tree
    | .file _ data => s.tree.put p (.file true data)

def size (s : Trees) (name : Name) : Int :=
  match s.findNode name with
  | some (.file _ data) => data.length
  | _ => -1

def execCheck (s : Trees) (name : Name) : Int :=
  if !s.ready then -5
  else
    match s.findNode name with
    | none => -2
    | some (.file true _) => 0
    | some _ => -13

def read (s : Trees) (name : Name) (offset size : Nat) : Option (List UInt8) :=
  match s.findNode name with
  | some (.file _ data) => if data.length < offset then none else some ((data.drop offset).take size)
  | _ => none

def cd (s : Trees) (name : Name) : Int × Trees :=
  match s.find name with
  | some p => if s.tree.get p = some .dir then (0, { s with cwd := p }) else (-1, s)
  | none => (-1, s)

/-- `engine_getcwd` climbs at most 64 directories. -/
def getcwd (s : Trees) (capacity : Nat) : Except Int Name :=
  if capacity < 2 then .error (-34)
  else if !s.ready then .error (-5)
  else if 64 < s.cwd.length then .error (-36)
  else if capacity ≤ (render s.cwd).length then .error (-34)
  else .ok (render s.cwd)

end Trees

instance : Engine Trees where
  Dir := List Name
  dirEq := inferInstance
  diskSelection s := s.selected
  diskRestore sel := modify ({ · with selected := sel })
  diskDeselect := modify ({ · with selected := noDisk })
  diskSelect raw name := modifyGet fun s => ((s.probe raw name s.selected).2, { s with selected := (s.probe raw name s.selected).1 })
  diskPresent := modifyGet fun s => ((s.volumes s.selected).isSome, s)
  engineReady := modifyGet fun s => (s.ready, s)
  unmount := modify ({ · with mounted := false })
  cwd s := s.cwd
  cwdRoot := modify ({ · with cwd := [] })
  extInit := modifyGet fun s => ((s.volumes s.selected).isSome, { s with mounted := (s.volumes s.selected).isSome, cwd := [] })
  extSize name := modifyGet fun s => (s.size name, s)
  extExecCheck name := modifyGet fun s => (s.execCheck name, s)
  extIsDir name := modifyGet fun s => (s.findNode name == some .dir, s)
  extRead name offset size := modifyGet fun s => (s.read name offset size, s)
  extCd name := modifyGet fun s => s.cd name
  extGetcwd capacity := modifyGet fun s => (s.getcwd capacity, s)
  extTouch name := modifyGet fun s => s.change (s.created name (.file false []))
  extMkdir name := modifyGet fun s => s.change (s.created name .dir)
  extWrite name data := modifyGet fun s => s.change (s.writtenPath name data)
  extAppend name data := modifyGet fun s => s.change (s.appended name data)
  extCp source dest := modifyGet fun s => s.change (s.copied source dest)
  extMv source dest := modifyGet fun s => s.change (s.renamed source dest)
  extRm name := modifyGet fun s => s.change (s.removed name false)
  extRmdir name := modifyGet fun s => s.change (s.removed name true)
  extSync := modifyGet fun s => (if s.ready then 0 else -1, s)
  markExecutable name := modifyGet fun s => s.change (s.executable name)
  formatSelected := modifyGet fun s =>
    if s.refuses s.clock then (false, { s with clock := s.clock + 1, mounted := false })
    else (true, { s with
      clock := s.clock + 1
      mounted := false
      volumes := Function.update s.volumes s.selected (some ⟨[]⟩) })

/-- Trees with any reports on inodes and directories. -/
abbrev reporting (inodes : Trees → Name → Option (Nat × Nat)) (entries : Trees → Name → Nat → Nat → Int × List UInt8 × Nat) :
    ListingEngine Trees where
  extStat n := modifyGet fun e => (inodes e n, e)
  extGetdents n capacity position := modifyGet fun e => (entries e n capacity position, e)

end Barnix.Vfs
