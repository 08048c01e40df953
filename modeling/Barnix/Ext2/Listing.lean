import Barnix.Lib.Batches
import Barnix.Ext2.Directory
/-!
# Reading a directory

`engine_getdents` gives the live records of a directory in batches, each starting at
the position where the last one ended. `app_directory` takes them one by one.
-/

namespace Barnix.Ext2

/-! ## One record -/

/-- Bytes of a buffer as numbers. -/
def byteAt (l : List UInt8) (k : Nat) : Nat := (l.getD k 0).toNat
def word16 (l : List UInt8) (k : Nat) : Nat := byteAt l k + 256 * byteAt l (k + 1)
def word32 (l : List UInt8) (k : Nat) : Nat := word16 l k + 65536 * word16 l (k + 2)

theorem le_direntLength (k : Nat) : k + 12 ≤ direntLength k := by
  unfold direntLength
  omega

theorem direntLength_mod (k : Nat) : direntLength k % 4 = 0 := Nat.mul_mod_left ..

section
variable {ino current reclen type : Nat} {name : Name}

theorem length_le16 (n : Nat) : (le16 n).length = 2 := rfl

theorem length_le32 (n : Nat) : (le32 n).length = 4 := rfl

theorem length_dirent (h : name.length + 12 ≤ reclen) : (dirent ino current reclen type name).length = reclen := by
  simp only [dirent, List.length_append, length_le32, length_le16, List.length_replicate, List.length_singleton]
  omega

theorem byteAt_append_left {a b : List UInt8} {k : Nat} (h : k < a.length) : byteAt (a ++ b) k = byteAt a k := by
  unfold byteAt
  rw [List.getD_append _ _ _ _ h]

theorem byteAt_append_right {a b : List UInt8} {k : Nat} (h : a.length ≤ k) : byteAt (a ++ b) k = byteAt b (k - a.length) := by
  unfold byteAt
  rw [List.getD_append_right _ _ _ _ h]

theorem word16_append_left {a b : List UInt8} {k : Nat} (h : k + 2 ≤ a.length) : word16 (a ++ b) k = word16 a k := by
  unfold word16
  rw [byteAt_append_left (by omega), byteAt_append_left (by omega)]

theorem word32_append_left {a b : List UInt8} {k : Nat} (h : k + 4 ≤ a.length) : word32 (a ++ b) k = word32 a k := by
  unfold word32
  rw [word16_append_left (by omega), word16_append_left (by omega)]

theorem word16_append_right {a b : List UInt8} {k : Nat} (h : a.length ≤ k) : word16 (a ++ b) k = word16 b (k - a.length) := by
  unfold word16
  rw [byteAt_append_right h, byteAt_append_right (by omega), Nat.sub_add_comm h]

theorem word32_append_right {a b : List UInt8} {k : Nat} (h : a.length ≤ k) : word32 (a ++ b) k = word32 b (k - a.length) := by
  unfold word32
  rw [word16_append_right h, word16_append_right (by omega), Nat.sub_add_comm h]

theorem word16_le16 {n : Nat} (h : n < 65536) : word16 (le16 n) 0 = n := by
  show (UInt8.ofNat n).toNat + 256 * (UInt8.ofNat (n / 256)).toNat = n
  simp only [UInt8.toNat_ofNat']
  omega

theorem word32_le32 {n : Nat} (h : n < 4294967296) : word32 (le32 n) 0 = n := by
  show ((UInt8.ofNat n).toNat + 256 * (UInt8.ofNat (n / 256)).toNat) +
    65536 * ((UInt8.ofNat (n / 65536)).toNat + 256 * (UInt8.ofNat (n / 65536 / 256)).toNat) = n
  simp only [UInt8.toNat_ofNat']
  omega

/-- What the fields of a `linux_dirent` say. -/
structure Dirent (bytes : List UInt8) (ino current reclen type : Nat) (name : Name) : Prop where
  size : bytes.length = reclen
  aligned : reclen % 4 = 0
  dIno : word32 bytes 0 = ino
  dOff : word32 bytes 4 = current
  dReclen : word16 bytes 8 = reclen
  dName : (bytes.drop 10).take name.length = name
  ends : bytes.getD (10 + name.length) 1 = 0
  inside : 10 + name.length < reclen - 1
  dType : byteAt bytes (reclen - 1) = type

theorem dirent_fields (hino : ino < 4294967296) (hcurrent : current < 4294967296) (htype : type < 256) (hname : name.length < 256) :
    Dirent (dirent ino current (direntLength name.length) type name) ino current (direntLength name.length) type name := by
  have hle := le_direntLength name.length
  have hlt : direntLength name.length < 65536 := by
    unfold direntLength
    omega
  generalize hr : direntLength name.length = reclen at *
  have hlen : (dirent ino current reclen type name).length = reclen := length_dirent hle
  have hparts : dirent ino current reclen type name =
      le32 ino ++ (le32 current ++ (le16 reclen ++ (name ++ (List.replicate (reclen - 11 - name.length) 0 ++ [UInt8.ofNat type])))) := by
    simp only [dirent, List.append_assoc]
  refine ⟨hlen, hr ▸ direntLength_mod _, ?_, ?_, ?_, ?_, ?_, by omega, ?_⟩
  · rw [hparts, word32_append_left (by rw [length_le32])]
    exact word32_le32 hino
  · rw [hparts, word32_append_right (by rw [length_le32]), length_le32, word32_append_left (by rw [length_le32])]
    exact word32_le32 hcurrent
  · rw [hparts, word16_append_right (by rw [length_le32]; omega), length_le32,
      word16_append_right (by rw [length_le32]), length_le32, word16_append_left (by rw [length_le16])]
    exact word16_le16 hlt
  · rw [hparts]
    exact List.take_left' rfl
  · rw [hparts]
    have h1 : 10 + name.length - 4 - 4 - 2 - name.length = 0 := by omega
    rw [List.getD_append_right _ _ _ _ (by rw [length_le32]; omega), length_le32,
      List.getD_append_right _ _ _ _ (by rw [length_le32]; omega), length_le32,
      List.getD_append_right _ _ _ _ (by rw [length_le16]; omega), length_le16,
      List.getD_append_right _ _ _ _ (by omega), h1, List.getD_append _ _ _ _ (by rw [List.length_replicate]; omega)]
    obtain ⟨m, hm⟩ : ∃ m, reclen - 11 - name.length = m + 1 := ⟨reclen - 12 - name.length, by omega⟩
    rw [hm]
    rfl
  · have hlast : dirent ino current reclen type name =
        (le32 ino ++ le32 current ++ le16 reclen ++ name ++ List.replicate (reclen - 11 - name.length) 0) ++ [UInt8.ofNat type] := rfl
    have hbefore : (le32 ino ++ le32 current ++ le16 reclen ++ name ++ List.replicate (reclen - 11 - name.length) 0).length =
        reclen - 1 := by
      simp only [List.length_append, length_le32, length_le16, List.length_replicate]
      omega
    rw [hlast, byteAt_append_right (Nat.le_of_eq hbefore), hbefore, Nat.sub_self]
    show (UInt8.ofNat type).toNat = type
    rw [UInt8.toNat_ofNat']
    omega

end

end Barnix.Ext2
