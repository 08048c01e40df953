import Barnix.Vfs.Accounts
/-!
# Shell sessions

`bssh.c`: the login, and the command lines that change who is working: `su` saves
the user and the working directory on a stack of eight sessions, `exit` goes back
to them, and `sudo` runs another command as root in between.
-/

namespace Barnix.Bssh

open Vfs

/-- `su`, `sudo`, `useradd`, `exit`, `logout` and `linux` -/
def suName : Name := [115, 117]
def sudoName : Name := [115, 117, 100, 111]
def useraddName : Name := [117, 115, 101, 114, 97, 100, 100]
def exitName : Name := [101, 120, 105, 116]
def logoutName : Name := [108, 111, 103, 111, 117, 116]
def linuxName : Name := [108, 105, 110, 117, 120]
/-- `ram0` -/
def ram0 : Name := [114, 97, 109, 48]

/-- A session that `su` has left for another one. -/
structure Session where
  user : Name
  cwd : Name

/-- The shell's state: `sessions` has eight places, and those below `depth` are in use. -/
structure Shell (ε : Type) where
  space : Space ε
  sessions : Nat → Session
  depth : Nat

/-- What the shell reports about sessions: a completed login, a session opened by `su`, and
a return to an outer session. -/
inductive Report where
  | welcome (user : Name)
  | opened
  | returned
deriving DecidableEq

/-- A parsed command line and what comes with it: the lines typed at its prompts, the salts
of new accounts, what an uninitialized buffer holds, and what the program it runs does to
the files. -/
structure Line (ε : Type) where
  compound : Bool
  words : List Name
  typed : List Name
  salt : Name → Name
  buffer : Name
  program : Space ε → Space ε

/-- `input`, and `secret_input`, which takes printable bytes only. -/
def input (capacity : Nat) (keys : Name) : Name := keys.take (capacity - 1)
def secretInput (capacity : Nat) (keys : Name) : Name := (keys.filter fun c => 32 ≤ c ∧ c ≤ 126).take (capacity - 1)

section
variable {ε : Type} [Engine ε]

/-! ## Logging in -/

/-- The loop for root's password, until the account is made; `none` while it waits for input. -/
def rootAccountLoop (salt : Name → Name) (s : Space ε) : List Name → Option (Space ε × List Name)
  | password :: confirm :: typed =>
    let password := secretInput maxPassword password
    let confirm := secretInput maxPassword confirm
    if password = [] ∨ password ≠ confirm then rootAccountLoop salt s typed
    else
      match exec (accountCreate (salt root) root password) s with
      | (true, s) => some (s, typed)
      | (false, s) => rootAccountLoop salt s typed
  | _ => none

/-- The loop for the first user's account. -/
def userAccountLoop (salt : Name → Name) (s : Space ε) : List Name → Option (Space ε × List Name)
  | user :: password :: confirm :: typed =>
    let user := input maxUsername user
    let password := secretInput maxPassword password
    let confirm := secretInput maxPassword confirm
    if user = root ∨ password ≠ confirm then userAccountLoop salt s typed
    else
      match exec (accountCreate (salt user) user password) s with
      | (true, s) => some (s, typed)
      | (false, s) => userAccountLoop salt s typed
  | _ => none

/-- The login loop, with the user it ends with. -/
def loginLoop (s : Space ε) : List Name → Option (Space ε × List Name × Name)
  | user :: password :: typed =>
    let user := input maxUsername user
    let password := secretInput maxPassword password
    match exec (authenticateUser user password) s with
    | (false, s) => loginLoop s typed
    | (true, s) =>
      match exec (switchUser user password) s with
      | (true, s) => some (s, typed, user)
      | (false, s) => loginLoop s typed
  | _ => none

/-- The accounts of a system that has none. -/
def firstStart (salt : Name → Name) (s : Space ε) (typed : List Name) : Option (Space ε × List Name) := do
  let (s, typed) ← rootAccountLoop salt s typed
  let (s, typed) ← userAccountLoop salt s typed
  return ((exec fsSync s).2, typed)

/-- `do_login` -/
def doLogin (salt : Name → Name) (s : Space ε) (typed : List Name) : Option (Space ε × List Name × Name) := do
  let (size, s) := exec (fsSize userpasswdCfg) s
  let (s, typed) ← if size < 0 then firstStart salt s typed else some (s, typed)
  let (s, typed, user) ← loginLoop s typed
  return ((exec settingsLoad s).2, typed, user)

/-! ## Command lines -/

/-- The prompt for a password, which root is not asked for. -/
def askPassword (s : Space ε) (typed : List Name) : Option (Name × List Name) :=
  if s.user = root then some ([], typed)
  else
    match typed with
    | [] => none
    | password :: typed => some (secretInput maxPassword password, typed)

/-- Back to a saved user and working directory: `permissions_restore` and `fs_cd`. -/
def restore (session : Session) (s : Space ε) : Space ε := (exec (fsCd session.cwd) { s with user := session.user }).2

/-- `su` -/
def runSu (args : List Name) (s : Shell ε) (typed : List Name) : Option (Shell ε × List Name × List Report) :=
  if 1 < args.length ∨ s.depth = 8 then some (s, typed, [])
  else do
    let (cwd, space) := exec (fsGetcwd pathCap) s.space
    -- a path that does not fit leaves the place's old working directory
    let session : Session := ⟨s.space.user, match cwd with
      | .ok path => path
      | .error _ => (s.sessions s.depth).cwd⟩
    let sessions := Function.update s.sessions s.depth session
    let (password, typed) ← askPassword space typed
    match exec (switchUser (args.headD root) password) space with
    | (false, space) => some ({ s with space := space, sessions := sessions }, typed, [])
    | (true, space) =>
      some (⟨(exec settingsLoad space).2, sessions, s.depth + 1⟩, typed, [.opened])

/-- `useradd` -/
def runUseradd (line : Line ε) (args : List Name) (s : Shell ε) (typed : List Name) : Option (Shell ε × List Name × List Report) :=
  match args, typed with
  | [user], password :: confirm :: typed =>
    if s.space.user ≠ root then some (s, password :: confirm :: typed, [])
    else
      let password := secretInput maxPassword password
      let confirm := secretInput maxPassword confirm
      if password ≠ confirm then some (s, typed, [])
      else some ({ s with space := (exec (accountCreate (line.salt user) user password) s.space).2 }, typed, [])
  | [_], typed => if s.space.user ≠ root then some (s, typed, []) else none
  | _, typed => some (s, typed, [])

/-- `exit` in an inner session, and `exit` or `logout` otherwise. -/
def runExit (line : Line ε) (name : Name) (s : Shell ε) (typed : List Name) : Option (Shell ε × List Name × List Report) :=
  if name = exitName ∧ s.depth ≠ 0 then
    some (⟨(exec settingsLoad (restore (s.sessions (s.depth - 1)) s.space)).2, s.sessions, s.depth - 1⟩, typed, [.returned])
  else do
    let (space, typed, user) ← doLogin line.salt { s.space with user := root } typed
    return (⟨space, s.sessions, 0⟩, typed, [.welcome user])

/-- `execute` for one command: the new state, what is left of the input, and the reports;
`none` while it waits for more input. -/
def runCommand (line : Line ε) : List Name → Shell ε → List Name → Option (Shell ε × List Name × List Report)
  | [], s, typed => some (s, typed, [])
  | name :: args, s, typed =>
    if name = suName ∨ name = sudoName ∨ name = useraddName then
      match exec (checkPermission (bin ++ [slash] ++ name) modeX) s.space with
      | (false, space) => some ({ s with space := space }, typed, [])
      | (true, space) =>
        let s := { s with space := space }
        if name = suName then runSu args s typed
        else if name = useraddName then runUseradd line args s typed
        else if args = [] then some (s, typed, [])
        else do
          let previous := s.space.user
          let (cwd, space) := exec (fsGetcwd pathCap) s.space
          let (password, typed) ← askPassword space typed
          match if previous = root then (true, space) else exec (authenticateUser root password) space with
          | (false, space) => some ({ s with space := space }, typed, [])
          | (true, space) =>
            let (t, typed, reports) ← runCommand line args { s with space := { space with user := root } } typed
            let session : Session := ⟨previous, match cwd with
              | .ok path => path
              | .error _ => line.buffer⟩
            return (⟨(exec settingsLoad (restore session t.space)).2, t.sessions, s.depth⟩, typed, reports)
    else if name = exitName ∨ name = logoutName then runExit line name s typed
    else if name = linuxName ∧ args = [] then some (s, typed, [])
    else some ({ s with space := line.program s.space }, typed, [])

/-- `execute` -/
def execute (line : Line ε) (s : Shell ε) : Option (Shell ε × List Report) :=
  if line.compound then some ({ s with space := line.program s.space }, [])
  else (runCommand line line.words s line.typed).map fun r => (r.1, r.2.2)

/-- The filesystem `bssh_main` starts on: the selected disk, or `ram0`. -/
def shellInit (s : Space ε) : Space ε :=
  if (exec fsInit s).1 then (exec fsInit s).2
  else
    match exec (onEngine (Engine.diskSelect (ε := ε) false ram0)) (exec fsInit s).2 with
    | (false, s) => s
    | (true, s) => (exec fsInit s).2

/-- The start of `bssh_main`, up to the first prompt. -/
def shellStart (salt : Name → Name) (s : Space ε) (sessions : Nat → Session) (typed : List Name) : Option (Shell ε) := do
  let (s, _, _) ← doLogin salt (shellInit s) typed
  return ⟨s, sessions, 0⟩

end

end Barnix.Bssh
