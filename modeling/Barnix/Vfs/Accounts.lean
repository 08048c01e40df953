import Barnix.Vfs.Files
/-!
# Accounts

The part of `permissions.c` that logs users in: passwords in
`/etc/userpasswd.cfg`, new accounts, and the change of the current user.
-/

namespace Barnix.Vfs

def colon : UInt8 := 58
/-- `/useretc` -/
def userEtc : Name := [47, 117, 115, 101, 114, 101, 116, 99]
/-- `/sys-lang.cfg` -/
def sysLang : Name := [47, 115, 121, 115, 45, 108, 97, 110, 103, 46, 99, 102, 103]
/-- `/theme.cfg` -/
def themeCfg : Name := [47, 116, 104, 101, 109, 101, 46, 99, 102, 103]
/-- `LANG=en` and a newline -/
def langEn : Name := [76, 65, 78, 71, 61, 101, 110, 10]

/-- The line loop of `authenticate_user`. A text that is not a sequence of lines
`name:secret` lets nobody in. -/
def scanPassword (user password : Name) : Nat → Name → Bool
  | 0, _ => false
  | rounds + 1, p =>
    if p = [] then false
    else
      match p.span fun c => c ≠ colon ∧ c ≠ newline with
      | (_, []) => false
      | (name, c :: p) =>
        if c ≠ colon then false
        else if name = user then passwordMatches password (p.takeWhile (· ≠ newline))
        else scanPassword user password rounds ((p.dropWhile (· ≠ newline)).drop 1)

/-- A line of the text starts with `mark`. -/
def hasLine (mark : Name) : Nat → Name → Bool
  | 0, _ => false
  | rounds + 1, p =>
    if p = [] then false
    else mark.isPrefixOf p || hasLine mark rounds ((p.dropWhile (· ≠ newline)).drop 1)

section
variable {ε : Type} [Engine ε]

/-- `authenticate_user` -/
def authenticateUser (user password : Name) : StateM (Space ε) Bool := do
  if !validUser user then return false
  match ← privateRead userpasswdCfg 4096 with
  | none => return false
  | some data => return scanPassword user password (cstr data).length (cstr data)

/-- `fs_cd` inside the kernel, without a check. -/
def plainCd (name : Name) : StateM (Space ε) Int := do
  let s ← get
  if !s.active then onEngine (Engine.extCd name)
  else
    match normalize s.working name with
    | none => return -1
    | some path =>
      if !(← plainIsDir path) then return -1
      modify ({ · with working := path })
      return 0

/-- The last part of `switch_user`. -/
def enterUser (user : Name) : StateM (Space ε) Unit := do
  namespaceStart
  modify ({ · with user := user })
  if (← fsCd (home user)) ≠ 0 then
    let _ ← plainCd [slash]

/-- `switch_user`: with the password, or as root to an existing account. -/
def switchUser (user password : Name) : StateM (Space ε) Bool := do
  if ← authenticateUser user password then
    enterUser user
    return true
  if (← get).user ≠ root then return false
  if !validUser user then return false
  match ← privateRead userpasswdCfg 4096 with
  | none => return false
  | some data =>
    if !hasLine (user ++ [colon]) (cstr data).length (cstr data) then return false
    enterUser user
    return true

/-- A directory that is there, or can be made. -/
def ensureDir (name : Name) : StateM (Space ε) Bool := do
  if ← fsIsDir name then return true
  return (← fsMkdir name) == 0

/-- The files of a new account, and its line in the account list `data`. -/
def addAccount (user encoded data : Name) : StateM (Space ε) Bool := do
  let _ ← fsMkdir etc
  let _ ← fsMkdir homes
  if !(← ensureDir (home user)) then return false
  if !(← ensureDir (home user ++ userEtc)) then return false
  let config := (← privateRead (etc ++ sysLang) 64).getD langEn
  if (← fsWrite (home user ++ userEtc ++ sysLang) config) ≠ 0 then return false
  return (← fsWrite userpasswdCfg (cstr data ++ user ++ [colon] ++ encoded ++ [newline])) == 0

/-- The salt of `account_create`: its counter, which `nonce` is after the timer, mixes the
name and gives sixteen digits. -/
def accountSalt (nonce : UInt32) (user : Name) : Name :=
  let mix : UInt32 := user.foldl (fun m c => m * 1664525 + c.toUInt32 + 1013904223) nonce
  ((List.range 16).foldl (fun (acc : UInt32 × Name) _ =>
    let m := acc.1 * 1664525 + 1013904223
    (m, acc.2 ++ [hexDigit (m >>> 28).toNat])) (mix, [])).2

/-- `account_create`; `salt` are the sixteen digits it mixes from a timer and the name. -/
def accountCreate (salt user password : Name) : StateM (Space ε) Bool := do
  namespaceStart
  if (← get).user ≠ root || !validUser user || password = [] || maxPassword ≤ password.length ||
      password.contains newline || password.contains 13 then return false
  let encoded := passwordEncode password salt
  match ← privateRead userpasswdCfg 4096 with
  | none =>
    if 0 ≤ (← fsSize userpasswdCfg) then return false
    addAccount user encoded []
  | some data =>
    if hasLine (user ++ [colon]) (cstr data).length (cstr data) then return false
    if 4096 ≤ data.length + user.length + encoded.length + 3 then return false
    addAccount user encoded data

/-- `settings_load`: the files it reads only set the colors and the language. -/
def settingsLoad : StateM (Space ε) Unit := do
  let user := (← get).user
  let theme := home user ++ userEtc ++ themeCfg
  let n ← fsSize theme
  if 0 < n ∧ n < 64 then
    let _ ← fsRead theme 0 n.toNat
  let own := home user ++ userEtc ++ sysLang
  let size ← fsSize own
  if size < 0 then
    let size ← fsSize (etc ++ sysLang)
    if 0 ≤ size ∧ size ≤ 512 then
      let _ ← fsRead (etc ++ sysLang) 0 size.toNat
  else if size ≤ 512 then
    let _ ← fsRead own 0 size.toNat

end

end Barnix.Vfs
