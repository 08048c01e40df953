import Barnix.Password
import Barnix.Vfs.Namespace
/-!
# Permissions

`permissions.c`: the access list `/etc/access.cfg`, a text of records
`path|user|rights|lock`, read by three scanners: the decision itself, the lock
search of `set_file_permissions`, and the rewriting of records for a rename.
-/

namespace Barnix.Vfs

/-- `/etc` -/
def etc : Name := [47, 101, 116, 99]
/-- `/home` -/
def homes : Name := [47, 104, 111, 109, 101]
/-- `/bin` -/
def bin : Name := [47, 98, 105, 110]
/-- `/etc/access.cfg` -/
def accessCfg : Name := etc ++ [47, 97, 99, 99, 101, 115, 115, 46, 99, 102, 103]
/-- `root` -/
def root : Name := [114, 111, 111, 116]

def modeR : UInt8 := 114
def modeW : UInt8 := 119
def modeX : UInt8 := 120

def maxUsername : Nat := 32
def maxPassword : Nat := 64
/-- The size of the buffers access lists are read into and built in. -/
def aclCap : Nat := 8192

def home (user : Name) : Name := homes ++ [slash] ++ user

def validUser (s : Name) : Bool :=
  s ≠ [] && s.length < maxUsername && s.length ≤ maxName &&
    s.all fun c => (97 ≤ c && c ≤ 122) || (48 ≤ c && c ≤ 57) || c == 95 || c == 45

/-- A buffer read as a C string. -/
def cstr (data : Name) : Name := data.takeWhile (· ≠ 0)

/-! ## The scanners -/

/-- The right of a user without a record for `path`. -/
def defaultRight (user path : Name) (mode : UInt8) : Bool :=
  (mode == modeX && (path == [slash] || path == homes)) || beneath path (home user) || (mode == modeX && beneath path bin)

/-- The record loop of `check_permission`. A record for `user` above `path`
decides unless an earlier one has a longer path; a text that is not a sequence
of records denies everything. -/
def scanRights (user path : Name) (mode : UInt8) : Nat → Name → Bool → Int → Bool
  | 0, _, allowed, _ => allowed
  | rounds + 1, p, allowed, specificity =>
    if p = [] then allowed
    else
      match p.span fun c => c ≠ bar ∧ c ≠ newline with
      | (_, []) => false
      | (file, c :: p) =>
        if c ≠ bar then false
        else
          match p.span (· ≠ bar) with
          | (_, []) => false
          | (owner, _ :: p) =>
            match p.span fun c => c ≠ bar ∧ c ≠ newline with
            | (_, []) => false
            | (rights, separator :: p) =>
              let hit := beneath path file && owner == user && specificity ≤ file.length
              scanRights user path mode rounds
                (if separator = bar then (p.dropWhile (· ≠ newline)).drop 1 else p)
                (if hit then rights.contains mode else allowed)
                (if hit then file.length else specificity)

/-- The decision for `path`, outside `/etc`, from the text of the access list. -/
def textAllows (user path : Name) (mode : UInt8) (text : Name) : Bool :=
  scanRights user path mode text.length text (defaultRight user path mode) (-1)

/-- Two times: over the separator and up to the next one. -/
def skipField (p : Name) : Name := (p.drop 1).dropWhile fun c => c ≠ bar ∧ c ≠ newline

/-- The lock loop of `set_file_permissions`: the last lock among those with the
longest path; `none` when a lock does not fit. -/
def scanLock (path : Name) : Nat → Name → Name → Int → Option Name
  | 0, _, lock, _ => some lock
  | rounds + 1, p, lock, depth =>
    if p = [] then some lock
    else
      let start := p.takeWhile (· ≠ bar)
      let hit := start.isPrefixOf path &&
        ((path.drop start.length).head? == none || (path.drop start.length).head? == some slash)
      let p := skipField (skipField (p.dropWhile (· ≠ bar)))
      let secret := if p.head? = some bar then (p.drop 1).takeWhile (· ≠ newline) else []
      let next := (p.dropWhile (· ≠ newline)).drop 1
      if hit ∧ secret ≠ [] ∧ depth ≤ start.length then
        if 96 ≤ secret.length then none else scanLock path rounds next secret start.length
      else scanLock path rounds next lock depth

def lockOf (path text : Name) : Option Name := scanLock path text.length text [] (-1)

/-- The text without the records that start with `mark`. -/
def keepLines (mark : Name) : Nat → Name → Name
  | 0, _ => []
  | rounds + 1, p =>
    if p = [] then []
    else (if mark.isPrefixOf p then [] else p.takeWhile (· ≠ newline) ++ [newline]) ++
      keepLines mark rounds ((p.dropWhile (· ≠ newline)).drop 1)

/-! ## Decisions -/

section
variable {ε : Type} [Engine ε]

/-- `private_read`: a file smaller than `cap`, without a permission check. -/
def privateRead (path : Name) (cap : Nat) : StateM (Space ε) (Option Name) := do
  let n ← plainSize path
  if n < 0 ∨ (cap : Int) ≤ n then return none
  match ← plainRead path 0 n.toNat with
  | some data => return if data.length = n.toNat then some data else none
  | none => return none

def checkPermission (name : Name) (mode : UInt8) : StateM (Space ε) Bool := do
  if (← get).user = root then return true
  namespaceStart
  let s ← get
  match normalize s.working name with
  | none => return false
  | some path =>
    if beneath path etc then return false
    match ← privateRead accessCfg aclCap with
    | some data => return textAllows s.user path mode (cstr data)
    | none =>
      if 0 ≤ (← plainSize accessCfg) then return false
      return defaultRight s.user path mode

/-- `x` for who has the right, `denied` for everybody else. -/
def checked {α : Type} (name : Name) (mode : UInt8) (denied : α) (x : StateM (Space ε) α) : StateM (Space ε) α := do
  if !(← checkPermission name mode) then return denied
  x

/-- `/etc/userpasswd.cfg` -/
def userpasswdCfg : Name := etc ++ [47, 117, 115, 101, 114, 112, 97, 115, 115, 119, 100, 46, 99, 102, 103]

/-- The loop of `permissions_uid`: the users are numbered in the order of their lines,
and a text that is not a sequence of lines `name:...` gives nobody a number. -/
def scanUid (user : Name) : Nat → Name → Nat → Nat
  | 0, _, _ => 65534
  | rounds + 1, p, uid =>
    if p = [] then 65534
    else
      match p.span fun c => c ≠ 58 ∧ c ≠ newline with
      | (_, []) => 65534
      | (name, c :: p) =>
        if c ≠ 58 then 65534
        else if name = user then uid
        else scanUid user rounds ((p.dropWhile (· ≠ newline)).drop 1) (if name = root then uid else uid + 1)

def permissionsUid : StateM (Space ε) Nat := do
  if (← get).user = root then return 0
  match ← privateRead userpasswdCfg 4096 with
  | none => return 65534
  | some data => return scanUid (← get).user (cstr data).length (cstr data) 1000

/-! ## Changing rights -/

/-- The salt of a lock comes from the path it guards. -/
def lockSalt (path : Name) : Name :=
  let mix : UInt32 := path.foldl (fun m c => (m ^^^ c.toUInt32) * 16777619) 2166136261
  ((List.range 16).foldl (fun (acc : UInt32 × Name) _ =>
    let m := acc.1 * 1664525 + 1013904223
    (m, acc.2 ++ [hexDigit (m >>> 28).toNat])) (mix, [])).2

/-- The lock a change leaves on the record, or the error it ends with. -/
def newLock (user path password lock : Name) : Except Int Name :=
  if user = root then
    if password = [] then .ok lock
    else if maxPassword ≤ password.length then .error (-1)
    else .ok (passwordEncode password (lockSalt path))
  else if beneath path etc then .error (-13)
  else if if lock ≠ [] then passwordMatches password lock else beneath path (home user) then .ok lock
  else .error (-13)

def pathFound (path : Name) : StateM (Space ε) Bool := do
  if 0 ≤ (← plainSize path) then return true
  plainIsDir path

def makeExecutable (path : Name) : StateM (Space ε) Int := do
  match ← route path false with
  | none => return -1
  | some loc => onEngine (Engine.markExecutable loc)

/-- The last part of `set_file_permissions`: the record of `user` for `path` is
replaced in the text `data`, and the file gets its execute bits. -/
def replaceRecord (path user rights spec encoded data : Name) : StateM (Space ε) Int := do
  if !(← pathFound path) then return -1
  let output := keepLines (path ++ [bar] ++ user ++ [bar]) data.length data
  if aclCap ≤ output.length + path.length + spec.length + encoded.length + 5 then return -1
  let result ← plainWrite accessCfg
    (output ++ path ++ [bar] ++ user ++ [bar] ++ rights ++ [bar] ++ encoded ++ [newline])
  if result = 0 ∧ rights.contains modeX then makeExecutable path else return result

def setFilePermissions (name spec password : Name) : StateM (Space ε) Int := do
  namespaceStart
  let s ← get
  match normalize s.working name with
  | none => return -1
  | some path =>
    let user := spec.takeWhile (· ≠ 61)
    let rights := (spec.dropWhile (· ≠ 61)).drop 1
    if path.contains bar || path.contains newline then return -1
    if !spec.contains 61 || maxUsername ≤ user.length || !validUser user then return -1
    if !rights.all [modeR, modeW, modeX].contains || 3 < rights.length then return -1
    let data := cstr ((← privateRead accessCfg aclCap).getD [])
    match lockOf path data with
    | none => return -1
    | some lock =>
      match newLock s.user path password lock with
      | .error e => return e
      | .ok encoded => replaceRecord path user rights spec encoded data

/-! ## Renaming -/

/-- The record loop of `permissions_move_prepare`, which builds `rename_guard`
(`size` bytes of it counted so far) and `renamed_acl`. -/
def moveLoop (src dst : Name) : Nat → Name → Nat → StateM (Space ε) Int
  | 0, _, _ => return 0
  | rounds + 1, p, size => do
    if p = [] then return 0
    match p.span fun c => c ≠ bar ∧ c ≠ newline with
    | (_, []) => return -1
    | (start, c :: p) =>
      if c ≠ bar then return -1
      let fields := p.takeWhile (· ≠ newline)
      let next := (p.dropWhile (· ≠ newline)).drop 1
      if beneath start src then
        if !(← checkPermission start modeW) then return -13
        let moved := dst ++ start.drop src.length
        if pathCap ≤ moved.length then return -1
        modify ({ · with renamedAclNeeded := true })
        if aclCap ≤ size + moved.length + fields.length + 3 then return -1
        let line := moved ++ [bar] ++ fields ++ [newline]
        -- a NUL in the list already ends the guard, whatever is put behind it
        modify fun s => { s with renameGuard := if s.renameGuard.length < size then s.renameGuard else s.renameGuard ++ line }
        if aclCap ≤ (← get).renamedAcl.length + moved.length + fields.length + 3 then return -1
        modify fun s => { s with renamedAcl := s.renamedAcl ++ line }
        moveLoop src dst rounds next (size + line.length)
      else
        if aclCap ≤ (← get).renamedAcl.length + start.length + fields.length + 3 then return -1
        modify fun s => { s with renamedAcl := s.renamedAcl ++ (start ++ [bar] ++ fields ++ [newline]) }
        moveLoop src dst rounds next size

def permissionsMovePrepare (source dest : Name) : StateM (Space ε) Int := do
  namespaceStart
  modify ({ · with renamedAclNeeded := false })
  let s ← get
  match normalize s.working source, normalize s.working dest with
  | some src, some dst =>
    match ← privateRead accessCfg aclCap with
    | none => return 0
    | some data =>
      modify ({ · with renameGuard := cstr data, renamedAcl := [] })
      moveLoop src dst (cstr data).length (cstr data) data.length
  | _, _ => return -1

def permissionsMoveCommit : StateM (Space ε) Int := do
  let s ← get
  if !s.renamedAclNeeded then return 0
  plainWrite accessCfg s.renameGuard

def permissionsMoveFinish : StateM (Space ε) Unit := do
  let s ← get
  if s.renamedAclNeeded then
    let _ ← plainWrite accessCfg s.renamedAcl
    modify ({ · with renamedAclNeeded := false })

end

end Barnix.Vfs
