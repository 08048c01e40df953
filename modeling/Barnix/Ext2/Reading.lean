import Barnix.Ext2.Removal
/-!
# Reading within the volume

The reading operations ask for the volume's own blocks only and change nothing;
`engine_cd` changes the working directory, to a directory.
-/

namespace Barnix.Ext2

section
variable {v : View}

open View

/-- What a path leads to is an inode in use. -/
theorem careful_nodeOf {Q : Option Ptr → View → Prop} (h : v.vol.Laid) (found : Option Nat) (hnone : Q none v)
    (hsome : ∀ n, v.inUse n = true → Q (some (v.node n)) v) : (nodeOf found).wp careful Q v := by
  cases found with
  | none => exact hnone
  | some n =>
    apply careful_inode h
    by_cases hn : v.inUse n = true
    · rw [if_pos hn]
      exact hsome n hn
    · rw [if_neg hn]
      exact hnone

/-- The path is resolved to an inode, and what follows looks at it. -/
theorem looks_path {α : Type} {f : Option Ptr → Prog α} (h : v.vol.Laid) (name : Name) (hnone : Looks (f none) v)
    (hsome : ∀ n, v.inUse n = true → Looks (f (some (v.node n))) v) :
    Looks (lookupPath name >>= fun found => nodeOf found >>= f) v := by
  refine (looks_lookupPath h name).bind fun found Q hq => ?_
  rw [Client.wp_bind]
  exact careful_nodeOf h found (hnone Q hq) fun n hn => hsome n hn Q hq

/-- An inode is checked, and what follows looks at it if it passes. -/
theorem looks_supported {α : Type} {f : Bool → Prog α} {n type : Nat} (h : v.vol.Laid) (hfalse : Looks (f false) v)
    (htrue : v.Sound (v.nodeBlock n) (v.nodeOff n) type → Looks (f true) v) : Looks (supportedNode (v.node n) type >>= f) v := by
  intro Q hq
  unfold View.node
  rw [Client.wp_bind]
  apply careful_supportedNode h
  cases hs : v.supports (v.nodeBlock n) (v.nodeOff n) type with
  | false => exact hfalse Q hq
  | true => exact htrue (supports_iff.1 hs) Q hq

theorem looks_rd32 (b off k : Nat) : Looks (rd32 ⟨some b, off⟩ k) v := fun Q hq => by
  rw [careful_rd32]
  exact hq _

theorem looks_rd16 (b off k : Nat) : Looks (rd16 ⟨some b, off⟩ k) v := fun Q hq => by
  rw [careful_rd16]
  exact hq _

theorem looks_kind (b off : Nat) : Looks (kind ⟨some b, off⟩) v := fun Q hq => by
  rw [careful_kind]
  exact hq _

theorem looks_size (h : v.vol.Laid) (name : Name) : Looks (size name) v := by
  unfold size
  refine looks_path h name (.pure _) fun n hn => looks_supported h (.pure _) fun _ => ?_
  exact Looks.bind (looks_rd32 _ _ _) fun _ => .pure _

theorem looks_stat (h : v.vol.Laid) (name : Name) : Looks (stat name) v := by
  unfold stat
  exact looks_path h name (.pure _) fun n hn => Looks.bind (looks_kind _ _) fun _ => Looks.bind (looks_rd32 _ _ _) fun _ => .pure _

theorem looks_isDir (h : v.vol.Laid) (name : Name) : Looks (isDir name) v := by
  unfold isDir
  refine looks_path h name (.pure _) fun n hn Q hq => ?_
  exact careful_supportedNode h (hq _)

theorem looks_execCheck (h : v.vol.Laid) (name : Name) : Looks (execCheck name) v := by
  unfold execCheck
  refine (looks_lookupPath h name).bind fun found => ?_
  cases found with
  | none => exact .pure _
  | some n =>
    intro Q hq
    dsimp only
    rw [Client.wp_bind]
    apply careful_inode h
    by_cases hn : v.inUse n = true
    · rw [if_pos hn]
      dsimp only
      refine (Looks.bind (looks_kind _ _) fun k => Looks.bind (looks_rd16 _ _ _) fun mode => .ite (.pure _) ?_) Q hq
      exact looks_supported h (.pure _) fun _ => .pure _
    · rw [if_neg hn]
      exact hq _

theorem looks_read (h : v.vol.Laid) (name : Name) (offset size : Nat) : Looks (read name offset size) v := by
  unfold read
  refine looks_path h name (.pure _) fun n hn => looks_supported h (.pure _) fun hsound Q hq => ?_
  unfold View.node
  rw [if_neg (by decide), Client.wp_bind, careful_rd32, careful_ite]
  split
  · exact hq _
  rename_i hoff
  have hlen : (v.mem (v.nodeBlock n)).get32 (v.nodeOff n + 4) ≤ maxFile := by
    by_contra hbig
    exact hsound.even (.inr (.inr (.inr (.inl ⟨rfl, .inl (Nat.lt_of_not_le hbig)⟩))))
  rw [Client.wp_bind]
  exact careful_readRange (hsound.holdsAll (.inl rfl)) (Nat.le_refl _) (by omega) (hq _)

/-! ## Listings -/

theorem looks_direntType (h : v.vol.Laid) (ino : Nat) : Looks (direntType ino) v := by
  intro Q hq
  unfold direntType
  rw [Client.wp_bind]
  apply careful_inode h
  by_cases hn : v.inUse ino = true
  · rw [if_pos hn]
    dsimp only
    exact (Looks.bind (looks_kind _ _) fun _ => .pure _) Q hq
  · rw [if_neg hn]
    exact hq _

theorem looks_dentsBlock (h : v.vol.Laid) (capacity m rounds off : Nat) (d : Dents) : Looks (dentsBlock capacity ⟨some m, 0⟩ rounds off d) v := by
  induction rounds generalizing off d with
  | zero => exact .pure _
  | succ rounds ih =>
    unfold dentsBlock
    rw [Ptr.add_mk, Nat.zero_add]
    have hnext : ∀ d, Looks (do dentsBlock capacity ⟨some m, 0⟩ rounds (off + (← rd16 ⟨some m, off⟩ 4)) d) v :=
      fun d => Looks.bind (looks_rd16 _ _ _) fun _ => ih _ d
    refine .ite (.pure _) (.bind (fun Q hq => ?_) fun valid => .ite (.pure _) (Looks.bind (looks_rd32 _ _ _) fun ino => .ite (hnext _) (.ite (hnext _) ?_)))
    · rw [careful_record]
      exact hq _
    refine .bind (fun Q hq => ?_) fun names => .ite (.pure _) ((looks_direntType h ino).bind fun type => .bind (fun Q hq => ?_) fun name => hnext _)
    · rw [careful_nameLength]
      exact hq _
    · rw [careful_nameBytes]
      exact hq _

theorem looks_dentsBlocks (h : v.vol.Laid) (capacity : Nat) {b off : Nat} {is : List Nat}
    (his : ∀ i ∈ is, v.vol.Owned ((v.mem b).get32 (off + (40 + i * 4)))) (d : Dents) : Looks (dentsBlocks capacity ⟨some b, off⟩ is d) v := by
  induction is generalizing d with
  | nil => exact .pure _
  | cons i is ih =>
    intro Q hq
    unfold dentsBlocks
    rw [Client.wp_bind, careful_rd32, Client.wp_bind, careful_block]
    refine ⟨his i List.mem_cons_self, ?_⟩
    rw [Client.wp_bind]
    apply looks_dentsBlock h
    intro r
    cases r with
    | error e => exact hq _
    | ok d => exact ih (fun j hj => his j (List.mem_cons_of_mem _ hj)) d Q hq

theorem looks_getdents (h : v.vol.Laid) (name : Name) (capacity position : Nat) : Looks (getdents name capacity position) v := by
  unfold getdents
  refine looks_path h name (.pure _) fun n hn => looks_supported h (.pure _) fun hsound Q hq => ?_
  unfold View.node
  rw [if_neg (by decide), Client.wp_bind, careful_rd32, Client.wp_bind]
  refine looks_dentsBlocks h capacity (fun i hi => ?_) _ _ fun r => ?_
  · exact owned_of_used (hsound.dirBlocks (List.mem_range.1 hi)).2
  · cases r with
    | error e => exact hq _
    | ok d => exact hq _

theorem looks_isOther (m off : Nat) : Looks (isOther ⟨some m, off⟩) v := fun Q hq => careful_isOther (hq _) (hq _)

theorem looks_lsBlock (h : v.vol.Laid) (m rounds off : Nat) (out : List (Name × Bool)) : Looks (lsBlock ⟨some m, 0⟩ rounds off out) v := by
  induction rounds generalizing off out with
  | zero => exact .pure _
  | succ rounds ih =>
    unfold lsBlock
    rw [Ptr.add_mk, Nat.zero_add]
    have hnext : ∀ out, Looks (do lsBlock ⟨some m, 0⟩ rounds (off + (← rd16 ⟨some m, off⟩ 4)) out) v :=
      fun out => Looks.bind (looks_rd16 _ _ _) fun _ => ih _ out
    refine .ite (.pure _) (.bind (fun Q hq => ?_) fun valid => .ite (.pure _) (.bind ?_ fun hidden => .ite (hnext _) ?_))
    · rw [careful_record]
      exact hq _
    · unfold lsBlock.isHidden
      exact (looks_isOther m off).bind fun _ => .pure _
    refine .bind (fun Q hq => ?_) fun names => .bind (fun Q hq => ?_) fun name => Looks.bind (looks_rd32 _ _ _) fun ino Q hq => ?_
    · rw [careful_nameLength]
      exact hq _
    · rw [careful_nameBytes]
      exact hq _
    rw [Client.wp_bind]
    apply careful_inode h
    by_cases hn : v.inUse ino = true
    · rw [if_pos hn]
      dsimp only
      exact (Looks.bind (looks_kind _ _) fun _ => (Looks.pure _).bind fun _ => hnext _) Q hq
    · rw [if_neg hn]
      exact ((Looks.pure _).bind fun _ => hnext _) Q hq

theorem looks_lsBlocks (h : v.vol.Laid) {b off : Nat} {is : List Nat} (his : ∀ i ∈ is, v.vol.Owned ((v.mem b).get32 (off + (40 + i * 4))))
    (out : List (Name × Bool)) : Looks (lsBlocks ⟨some b, off⟩ is out) v := by
  induction is generalizing out with
  | nil => exact .pure _
  | cons i is ih =>
    intro Q hq
    unfold lsBlocks
    rw [Client.wp_bind, careful_rd32, Client.wp_bind, careful_block]
    refine ⟨his i List.mem_cons_self, ?_⟩
    refine ((looks_lsBlock h _ _ _ _).bind fun r => ?_) Q hq
    exact .ite (ih (fun j hj => his j (List.mem_cons_of_mem _ hj)) _) (.pure _)

theorem looks_ls (h : v.vol.Laid) : Looks ls v := by
  intro Q hq
  unfold ls
  rw [Client.wp_bind, careful_workingDir, Client.wp_bind]
  apply careful_inode h
  by_cases hn : v.inUse v.cwd = true
  · rw [if_pos hn]
    dsimp only
    apply looks_supported h
    · exact .pure _
    · intro hsound Q hq
      unfold View.node
      rw [if_neg (by decide), Client.wp_bind, careful_rd32]
      exact looks_lsBlocks h (fun i hi => owned_of_used (hsound.dirBlocks (List.mem_range.1 hi)).2) _ Q hq
    · exact hq
  · rw [if_neg hn]
    exact hq _

/-! ## The working directory -/

theorem looks_climb (h : v.vol.Laid) (rounds n : Nat) (path : List Nat) : Looks (climb rounds n path) v := by
  induction rounds generalizing n path with
  | zero =>
    unfold climb
    exact .ite (.pure _) (.pure _)
  | succ rounds ih =>
    unfold climb
    refine .ite (.pure _) ((looks_lookup h n dotdot).bind fun found => ?_)
    cases found with
    | entry parent e => exact .ite (.pure _) (ih parent _)
    | absent => exact .pure _
    | corrupt => exact .pure _

theorem careful_isChild {Q : Option (Except Int Name) → View → Prop} {child m off : Nat} (hnone : Q none v)
    (hsome : ∀ name, Q (some (.ok name)) v) : (isChild child ⟨some m, off⟩).wp careful Q v := by
  unfold isChild
  simp only [Client.wp_bind, careful_rd32, careful_ite, Client.wp_pure, careful_nameEqual, careful_nameLength, careful_nameBytes]
  split
  · exact hnone
  split
  · exact hnone
  split
  · exact hnone
  · exact hsome _

theorem looks_scanChild {n : Nat} (hn : v.Sound (v.nodeBlock n) (v.nodeOff n) dirMode) (bad : Except Int Name) (child : Nat) :
    Looks (scanDir (v.node n) bad (isChild child)) v := by
  intro Q hq
  apply careful_scanDir hn
  · exact fun m _ off _ _ => careful_isChild rfl fun _ => hq _
  · exact hq _
  · exact hq _

/-- An inode is looked up, checked and scanned for the record of a child. -/
theorem looks_descent {α : Type} {bad : Except Int Name} {n child : Nat} {lost : Prog α} {f : Option (Except Int Name) → Prog α} (h : v.vol.Laid)
    (hlost : Looks lost v) (hf : ∀ r, Looks (f r) v) : Looks (do
      match ← inode n with
      | none => lost
      | some node =>
        if !(← supportedNode node dirMode) then lost
        else scanDir node bad (isChild child) >>= f) v := by
  intro Q hq
  rw [Client.wp_bind]
  apply careful_inode h
  by_cases hn : v.inUse n = true
  · rw [if_pos hn]
    dsimp only
    apply looks_supported h hlost
    · exact fun hsound => (looks_scanChild hsound bad child).bind hf
    · exact hq
  · rw [if_neg hn]
    exact hlost Q hq

theorem looks_descend (h : v.vol.Laid) (capacity : Nat) (path : List Nat) (n : Nat) (out : Name) : Looks (descend capacity n path out) v := by
  induction path generalizing n out with
  | nil => exact .pure _
  | cons child path ih =>
    unfold descend
    refine looks_descent h (.pure _) fun r => ?_
    cases r with
    | none => exact .pure _
    | some r =>
      cases r with
      | error e => exact .pure _
      | ok name => exact .ite (.pure _) (.ite (.pure _) (.ite (.pure _) (ih _ _)))

theorem looks_getcwd (h : v.vol.Laid) (capacity : Nat) : Looks (getcwd capacity) v := by
  intro Q hq
  unfold getcwd
  rw [Client.wp_bind, careful_workingDir]
  refine ((looks_climb h _ _ _).bind fun r => ?_) Q hq
  cases r with
  | error e => exact .pure _
  | ok path => exact looks_descend h capacity path _ _

theorem looks_printPath (h : v.vol.Laid) (path : List Nat) (n : Nat) (out : Name) : Looks (printPath n path out) v := by
  induction path generalizing n out with
  | nil => exact .pure _
  | cons child path ih =>
    unfold printPath
    refine looks_descent h (.pure _) fun r => ?_
    cases r with
    | none => exact .pure _
    | some r =>
      cases r with
      | error e => exact .pure _
      | ok name => exact ih _ _

theorem looks_pwd (h : v.vol.Laid) : Looks pwd v := by
  intro Q hq
  unfold pwd
  rw [Client.wp_bind, careful_workingDir]
  refine ((looks_climb h _ _ _).bind fun r => ?_) Q hq
  cases r with
  | error e => exact .pure _
  | ok path => exact looks_printPath h path _ _

/-- `engine_cd` leaves the working directory or makes it another directory. -/
theorem careful_cd (h : v.vol.Laid) (name : Name) : (cd name).wp careful
    (fun r u => r = -1 ∧ u = v ∨ r = 0 ∧ ∃ n, Gives (lookupPath name) v (some n) ∧ v.IsDir n ∧ u = { v with cwd := n }) v := by
  unfold cd
  obtain ⟨found, hgives, -⟩ := (looks_lookupPath h name).answer (P := fun _ _ => True) (looks_lookupPath h name _ fun _ => trivial)
  rw [Client.wp_bind]
  apply hgives
  cases found with
  | none => exact .inl ⟨rfl, rfl⟩
  | some n =>
    dsimp only
    rw [Client.wp_bind]
    apply careful_inode h
    by_cases hn : v.inUse n = true
    · rw [if_pos hn]
      unfold supported
      dsimp only
      rw [Client.wp_bind]
      apply careful_supportedNode h
      rw [careful_ite]
      split
      · exact .inl ⟨rfl, rfl⟩
      rename_i hs
      rw [Client.wp_bind, careful_chdir]
      exact .inr ⟨rfl, n, hgives, ⟨hn, supports_iff.1 (by simpa using hs)⟩, rfl⟩
    · rw [if_neg hn]
      exact .inl ⟨rfl, rfl⟩

end

end Barnix.Ext2
