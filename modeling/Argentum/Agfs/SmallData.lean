/-
# Agfs.SmallData — the attribute records in the tail of an inode

The tail of an inode holds a sequence of records: type, length of the name, length of the
data, the name with three zeros behind it, the data with one (`struct agfs_small_data`). It
ends where the length of a name is zero, or where no record fits any more. The name of the
file itself is a record, named `0x13`. The bytes of an inline file stand behind the end,
twelve bytes further on.

Each walk of `fs/agfs/xattr.c` and `agfs_inline_base` is a recursion over the bytes that are
left. Every lemma is about bytes that begin with the records `rs` and go on with zeros for
as long as a header is (`Quiet`): a walk reads `rs` there (`recordsFrom_encode`), copies
those it is to keep, removes one, or finds the place of the inline bytes.
-/
import Argentum.Lib.ByteMap
import Mathlib.Algebra.Group.Nat.Defs

namespace Argentum.Agfs.SmallData

open List

structure Record where
  type : UInt32
  name : Bytes
  data : Bytes
  deriving DecidableEq

/-! ## Bytes -/

/-- `AGFS_SD_SIZE`. -/
def sdSize (n d : Nat) : Nat := 8 + n + 3 + d + 1

/-- A record as `agfs_setxattr` and `agfs_inode_set_name` write it. -/
def encodeRecord (r : Record) : Bytes :=
  [UInt8.ofNat r.type.toNat, UInt8.ofNat (r.type.toNat / 2 ^ 8),
    UInt8.ofNat (r.type.toNat / 2 ^ 16), UInt8.ofNat (r.type.toNat / 2 ^ 24),
    UInt8.ofNat r.name.length, UInt8.ofNat (r.name.length / 2 ^ 8),
    UInt8.ofNat r.data.length, UInt8.ofNat (r.data.length / 2 ^ 8)] ++
    (r.name ++ ([0, 0, 0] ++ (r.data ++ [0])))

def encode (rs : List Record) : Bytes := rs.flatMap encodeRecord

variable (keep : Record → Bool) (p : Bytes)

def byteAt (i : Nat) : Nat := (p.getD i 0).toNat

/-- `sd->name_size`. -/
def nameSize : Nat := byteAt p 4 + 2 ^ 8 * byteAt p 5

/-- `sd->data_size`. -/
def dataSize : Nat := byteAt p 6 + 2 ^ 8 * byteAt p 7

def need : Nat := sdSize (nameSize p) (dataSize p)

/-- The record at the front of the bytes. -/
def readRecord : Record where
  type := UInt32.ofNat (byteAt p 0 + 2 ^ 8 * byteAt p 1 + 2 ^ 16 * byteAt p 2 + 2 ^ 24 * byteAt p 3)
  name := (p.drop 8).take (nameSize p)
  data := (p.drop (8 + nameSize p + 3)).take (dataSize p)

/-- Where every walk ends. -/
def stops : Bool := p.length < 8 || nameSize p = 0 || p.length < need p

/-! ## Walks -/

/-- The records that `agfs_xattr_walk` visits. A record takes twelve bytes at least. -/
def recordsFrom : Nat → Bytes → List Record
  | 0, _ => []
  | fuel + 1, p =>
    if stops p then [] else readRecord p :: recordsFrom fuel (p.drop (need p))

def records : List Record := recordsFrom p.length p

/-- The copying loop of `agfs_setxattr` and `agfs_inode_set_name`. -/
def copyFrom (keep : Record → Bool) : Nat → Bytes → Bytes
  | 0, _ => []
  | fuel + 1, p =>
    if stops p then []
    else (if keep (readRecord p) then p.take (need p) else []) ++
      copyFrom keep fuel (p.drop (need p))

def copyRecords : Bytes := copyFrom keep p.length p

/-- The compacting loop of `agfs_removexattr` and `agfs_xattr_remove_sd`. -/
def removeFrom (name : Bytes) : Nat → Bytes → Bytes
  | 0, p => p
  | fuel + 1, p =>
    if stops p then p
    else if (readRecord p).name = name then p.drop (need p) ++ List.replicate (need p) 0
    else p.take (need p) ++ removeFrom name fuel (p.drop (need p))

def removeRecord (name : Bytes) (p : Bytes) : Bytes := removeFrom name p.length p

/-- The walk of `agfs_inline_base`: `pos` bytes lie behind, the length of `p` is left. -/
def inlineBaseFrom : Nat → Bytes → Nat → Nat
  | 0, p, _ => p.length
  | fuel + 1, p, pos =>
    if p.length < 8 then p.length
    else if nameSize p = 0 ∧ dataSize p = 0 then min (pos + 12) p.length
    else if nameSize p = 0 then p.length
    else if p.length < pos + need p then p.length
    else inlineBaseFrom fuel (p.drop (need p)) (pos + need p)

/-- `agfs_inline_base`. -/
def inlineBase : Nat := inlineBaseFrom p.length p 0

/-! ## Bytes that begin with records -/

/-- A record that can be written: its lengths fit their fields, and it has a name. -/
structure Fitting (r : Record) : Prop where
  named : r.name ≠ []
  name : r.name.length < 2 ^ 16
  data : r.data.length < 2 ^ 16

/-- Where a header would stand, all bytes are zero. -/
def Quiet (rest : Bytes) : Prop := ∀ i < 12, ∀ b, rest[i]? = some b → b = 0

section Encoded

variable {r : Record} {rs : List Record} {q rest : Bytes}

@[simp] theorem encode_nil : encode [] = [] := rfl

@[simp] theorem encode_cons (r : Record) (rs : List Record) :
    encode (r :: rs) = encodeRecord r ++ encode rs := flatMap_cons

@[simp] theorem encode_append (rs rs' : List Record) :
    encode (rs ++ rs') = encode rs ++ encode rs' := flatMap_append

@[simp] theorem encodeRecord_length (r : Record) :
    (encodeRecord r).length = sdSize r.name.length r.data.length := by
  simp [encodeRecord, sdSize]
  omega

section

variable (fits : Fitting r)

include fits

theorem nameSize_encode (q : Bytes) : nameSize (encodeRecord r ++ q) = r.name.length := by
  have bound := fits.name
  simp [nameSize, byteAt, encodeRecord]
  omega

theorem dataSize_encode (q : Bytes) : dataSize (encodeRecord r ++ q) = r.data.length := by
  have bound := fits.data
  simp [dataSize, byteAt, encodeRecord]
  omega

theorem need_encode (q : Bytes) : need (encodeRecord r ++ q) = (encodeRecord r).length := by
  rw [need, nameSize_encode fits, dataSize_encode fits, encodeRecord_length]

theorem readRecord_encode (q : Bytes) : readRecord (encodeRecord r ++ q) = r := by
  have type : (readRecord (encodeRecord r ++ q)).type = r.type := by
    have bound := r.type.toNat_lt
    apply UInt32.toNat_inj.mp
    simp [readRecord, byteAt, encodeRecord]
    omega
  have name : (readRecord (encodeRecord r ++ q)).name = r.name := by
    simp only [readRecord, nameSize_encode fits]
    simp [encodeRecord]
  have data : (readRecord (encodeRecord r ++ q)).data = r.data := by
    simp only [readRecord, nameSize_encode fits, dataSize_encode fits]
    have front : ∀ header : Bytes, header.length = 8 →
        (header ++ (r.name ++ ([0, 0, 0] ++ (r.data ++ [0]))) ++ q).drop (8 + r.name.length + 3) =
          r.data ++ ([0] ++ q) := by
      intro header eight
      have split : header ++ (r.name ++ ([0, 0, 0] ++ (r.data ++ [0]))) ++ q =
          (header ++ r.name ++ [0, 0, 0]) ++ (r.data ++ ([0] ++ q)) := by
        simp
      rw [split]
      apply drop_left'
      simp [eight, Nat.add_assoc]
    rw [encodeRecord, front _ rfl, take_left]
  cases read : readRecord (encodeRecord _ ++ q)
  simp_all

theorem stops_encode (q : Bytes) : stops (encodeRecord r ++ q) = false := by
  have named := length_pos_iff.mpr fits.named
  have length := encodeRecord_length r
  simp only [stops, need_encode fits, nameSize_encode fits, length_append, Bool.or_eq_false_iff,
    decide_eq_false_iff_not]
  rw [length]
  unfold sdSize
  omega

theorem take_encode (q : Bytes) :
    (encodeRecord r ++ q).take (need (encodeRecord r ++ q)) = encodeRecord r := by
  rw [need_encode fits, take_left]

theorem drop_encode (q : Bytes) : (encodeRecord r ++ q).drop (need (encodeRecord r ++ q)) = q := by
  rw [need_encode fits, drop_left]

end

theorem Quiet.byteAt (quiet : Quiet rest) {i : Nat} (small : i < 12) :
    SmallData.byteAt rest i = 0 := by
  simp only [SmallData.byteAt, getD_eq_getElem?_getD]
  cases here : rest[i]? with
  | none => rfl
  | some b =>
    rw [quiet i small b here]
    rfl

theorem Quiet.sizes (quiet : Quiet rest) : nameSize rest = 0 ∧ dataSize rest = 0 := by
  simp [nameSize, dataSize, quiet.byteAt]

theorem Quiet.stops (quiet : Quiet rest) : SmallData.stops rest = true := by
  simp [SmallData.stops, quiet.sizes]

theorem quiet_replicate (n : Nat) : Quiet (List.replicate n 0) := by
  intro i _ b here
  exact eq_of_mem_replicate (mem_of_getElem? here)

/-- The bytes of a record that was removed are zeros enough. -/
theorem Quiet.append_zeros (quiet : Quiet rest) {n : Nat} (long : 12 ≤ n) (more : Bytes) :
    Quiet (rest ++ (List.replicate n 0 ++ more)) := by
  intro i small b here
  rw [List.getElem?_append] at here
  split at here
  · exact quiet i small b here
  · rw [List.getElem?_append_left (by simp; omega)] at here
    exact eq_of_mem_replicate (mem_of_getElem? here)

theorem Quiet.take (quiet : Quiet rest) (n : Nat) : Quiet (rest.take n) := by
  intro i small b here
  rw [List.getElem?_take] at here
  split at here
  · exact quiet i small b here
  · cases here

/-! ## The walks on them -/

theorem removeFrom_length (name : Bytes) (fuel : Nat) (p : Bytes) :
    (removeFrom name fuel p).length = p.length := by
  induction fuel generalizing p with
  | zero => rfl
  | succ fuel ih =>
    rw [removeFrom]
    split
    · rfl
    rename_i goesOn
    have fits : need p ≤ p.length := by
      simp [stops] at goesOn
      omega
    split
    · simp
      omega
    · simp [ih]
      omega

variable (fitting : ∀ r ∈ rs, Fitting r) (quiet : Quiet rest) {fuel : Nat}
include fitting quiet

theorem recordsFrom_encode (enough : rs.length ≤ fuel) :
    recordsFrom fuel (encode rs ++ rest) = rs := by
  induction rs generalizing fuel with
  | nil =>
    cases fuel with
    | zero => rfl
    | succ fuel => simp [recordsFrom, quiet.stops]
  | cons r rs ih =>
    obtain _ | fuel := fuel
    · simp at enough
    obtain ⟨fits, others⟩ := forall_mem_cons.mp fitting
    rw [recordsFrom, encode_cons, append_assoc, stops_encode fits, readRecord_encode fits,
      drop_encode fits, ih others (by simpa using enough)]
    simp

theorem copyFrom_encode (keep : Record → Bool) (enough : rs.length ≤ fuel) :
    copyFrom keep fuel (encode rs ++ rest) = encode (rs.filter keep) := by
  induction rs generalizing fuel with
  | nil =>
    cases fuel with
    | zero => rfl
    | succ fuel => simp [copyFrom, quiet.stops]
  | cons r rs ih =>
    obtain _ | fuel := fuel
    · simp at enough
    obtain ⟨fits, others⟩ := forall_mem_cons.mp fitting
    rw [copyFrom, encode_cons, append_assoc, stops_encode fits, readRecord_encode fits,
      drop_encode fits, take_encode fits, ih others (by simpa using enough)]
    by_cases kept : keep r <;> simp [kept]

omit quiet in
/-- The first record of the name goes, and what lies behind it moves up. -/
theorem removeFrom_encode {name : Bytes} (enough : rs.length ≤ fuel)
    (found : rs.find? (fun r => r.name = name) = some r) :
    removeFrom name fuel (encode rs ++ rest) =
      encode (rs.eraseP fun r => r.name = name) ++ rest ++
        List.replicate (encodeRecord r).length 0 := by
  induction rs generalizing fuel with
  | nil => cases found
  | cons r' rs ih =>
    obtain _ | fuel := fuel
    · simp at enough
    obtain ⟨fits, others⟩ := forall_mem_cons.mp fitting
    rw [removeFrom, encode_cons, append_assoc, stops_encode fits, readRecord_encode fits,
      drop_encode fits, need_encode fits]
    by_cases same : r'.name = name
    · rw [List.find?_cons_of_pos (by simpa using same)] at found
      cases found
      simp [same]
    · rw [List.find?_cons_of_neg (by simpa using same)] at found
      rw [ih others (by simpa using enough) found]
      simp [same]

/-- Records that leave room for themselves once more have the inline bytes where they should
be. -/
theorem inlineBaseFrom_encode {pos : Nat} (enough : rs.length < fuel)
    (room : pos + (encode rs).length + 12 ≤ rest.length) :
    inlineBaseFrom fuel (encode rs ++ rest) pos = pos + (encode rs).length + 12 := by
  induction rs generalizing fuel pos with
  | nil =>
    obtain _ | fuel := fuel
    · simp at enough
    simp only [encode_nil, length_nil, nil_append] at room ⊢
    rw [inlineBaseFrom, if_neg (by omega), if_pos quiet.sizes]
    omega
  | cons r rs ih =>
    obtain _ | fuel := fuel
    · simp at enough
    obtain ⟨fits, others⟩ := forall_mem_cons.mp fitting
    have named := length_pos_iff.mpr fits.named
    simp only [encode_cons, length_append] at room ⊢
    rw [inlineBaseFrom, append_assoc, nameSize_encode fits, need_encode fits,
      drop_left, if_neg (by simp; omega), if_neg (by omega), if_neg (by omega),
      if_neg (by simp; omega), ih others (by simpa using enough) (by omega)]
    omega

end Encoded

end Argentum.Agfs.SmallData
