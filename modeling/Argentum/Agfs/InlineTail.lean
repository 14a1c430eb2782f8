/-
# Agfs.InlineTail — inline bytes and records share the tail of an inode

The bytes of an inline file stand in the tail of its inode behind the attribute records, at a
place that `agfs_inline_base` finds by walking the records. The calls that change records make
the file a stream first, so that while a file is inline its records do not move. But
`agfs_file_write` makes an empty file inline whatever its records take, and
`agfs_inline_base` only finds the end of records that leave room for themselves once more. In
every run in which a file becomes inline with room for `AGFS_INLINE_MAX` bytes, its bytes stay
inside the tail and off the records (`inline_bytes_apart`).
-/
import Argentum.Agfs.Xattr

namespace Argentum.Agfs.Xattr

open Lib.Machine Agfs.SmallData List
open Agfs.Ownership (inlineMax)

/-! ## Where the records lie -/

/-- The first byte of each record that `agfs_xattr_walk` visits, and the first one behind it. -/
def spansFrom : Nat → Bytes → Nat → List (Nat × Nat)
  | 0, _, _ => []
  | fuel + 1, p, pos =>
    if stops p then [] else (pos, pos + need p) :: spansFrom fuel (p.drop (need p)) (pos + need p)

def spans (p : Bytes) : List (Nat × Nat) := spansFrom p.length p 0

variable {rest : Bytes} {rs : List Record}

theorem spansFrom_encode (fitting : ∀ r ∈ rs, Fitting r) (quiet : Quiet rest) (fuel pos : Nat) :
    ∀ span ∈ spansFrom fuel (encode rs ++ rest) pos, span.2 ≤ pos + (encode rs).length := by
  induction fuel generalizing rs pos with
  | zero => exact forall_mem_nil _
  | succ fuel ih =>
    cases rs with
    | nil => simp [spansFrom, quiet.stops]
    | cons r rs =>
      obtain ⟨fits, others⟩ := forall_mem_cons.mp fitting
      have later := ih others (pos + (encodeRecord r).length)
      rw [encode_cons, append_assoc, spansFrom, stops_encode fits, need_encode fits,
        drop_left, length_append]
      simp only [Bool.false_eq_true, if_false, forall_mem_cons]
      exact ⟨by omega, fun span member => by have := later span member; omega⟩

section Apart

variable (tail : Nat)

/-- While the file is inline, its bytes are in the tail, and none is in a record. -/
def BytesApart (s : Node) : Prop :=
  s.isInline = true →
    inlineBase (s.area.take tail) + s.size ≤ tail ∧
      ∀ span ∈ spans (s.area.take tail), ∀ k, span.1 ≤ k → k < span.2 →
        ¬ (inlineBase (s.area.take tail) ≤ k ∧ k < inlineBase (s.area.take tail) + s.size)

/-- The records leave room for themselves once more, and for the longest inline file. -/
def Roomy (taken : Nat) : Prop := 2 * taken + 12 ≤ tail ∧ taken + 12 + inlineMax ≤ tail

/-- A file becomes inline only if its records leave room, and no write of no bytes is made
behind its end. -/
def RoomyLabel (s : Node) : Label → Prop
  | .write off data =>
    (folds s off data = true → Roomy tail (encode (records (s.area.take tail))).length) ∧
      (data = [] → off ≤ s.size)
  | _ => True

/-! ## The invariant -/

def Laid (s : Node) : Prop :=
  ∃ rs rest, Tail tail s.area rs rest ∧
    (s.isInline = true → Roomy tail (encode rs).length ∧ s.size ≤ inlineMax)

end Apart

variable {tail : Nat} {s s' : Node} {name : AttrName}

theorem Laid.apart (laid : Laid tail s) (most : tail ≤ smallDataSize) : BytesApart tail s := by
  intro isInline
  obtain ⟨rs, rest, holds, inlined⟩ := laid
  obtain ⟨⟨room, fits⟩, small⟩ := inlined isInline
  rw [holds.base most room]
  refine ⟨by omega, fun span member k _ below inside => ?_⟩
  rw [holds.seen] at member
  have before := spansFrom_encode holds.fitting (holds.quiet.take _) _ 0 span member
  omega

/-- The file is a stream, with some records. -/
theorem Laid.stream (holds : Tail tail s.area rs rest)
    (stream : s.isInline = false) : Laid tail s :=
  ⟨rs, rest, holds, fun isInline => by rw [stream] at isInline; cases isInline⟩

/-- The bytes behind the place of the inline bytes change. -/
theorem Laid.rewritten (holds : Tail tail s.area rs rest)
    (most : tail ≤ smallDataSize) (roomy : Roomy tail (encode rs).length)
    (small : s'.size ≤ inlineMax) (length : s'.area.length = s.area.length)
    (before : ∀ i < inlineBase (s.area.take tail), s'.area[i]? = s.area[i]?) : Laid tail s' := by
  rw [holds.base most roomy.1] at before
  obtain ⟨rest', holds'⟩ := holds.behind length before
  exact ⟨rs, rest', holds', fun _ => ⟨roomy, small⟩⟩

theorem setxattr_laid (laid : Laid tail s) (most : tail ≤ smallDataSize) (named : name ≠ [])
    {value : Bytes} {flags : UInt32} (done : setxattr tail s name value flags = .ok s') :
    Laid tail s' := by
  obtain ⟨rs, rest, holds, -⟩ := laid
  obtain ⟨accessible, ⟨type, rfl⟩ | ⟨keep, type, s₁, put, drops, -, area, isInline, -⟩⟩ :=
    setxattr_cases holds done
  · obtain ⟨rest', holds'⟩ :=
      attrSet_tail holds accessible value type
    exact .stream holds' rfl
  · have notName : isName ⟨type, name, value⟩ = false := accessible
    obtain ⟨rest', holds'⟩ := putRecord_tail (s := { s with isInline := false }) holds most drops
      named (by simp [notName]) put
    rw [← area] at holds'
    exact .stream holds' (isInline.trans (putRecord_rest put).1)

theorem removexattr_laid (laid : Laid tail s) (done : removexattr tail s name = .ok s') :
    Laid tail s' := by
  obtain ⟨rs, rest, holds, -⟩ := laid
  unfold removexattr at done
  iterate 2
    split at done
    · cases done
  rename_i refused stream
  have stream : s.isInline = false := by simpa using stream
  rw [holds.find (by simpa using refused)] at done
  split at done
  · rename_i there
    cases done
    obtain ⟨r, found⟩ := Option.isSome_iff_exists.mp there
    obtain ⟨rest', holds'⟩ := holds.remove found holds.fit
    exact .stream holds' stream
  · obtain ⟨area, isInline, -⟩ := attrRemove_spec done
    exact .stream (area ▸ holds) (isInline.trans stream)

section

variable (laid : Laid tail s) (most : tail ≤ smallDataSize)

include laid most

theorem setName_laid {newname : Bytes} (short : newname.length ≤ attrNameMax)
    (done : setName tail s newname = .ok s') :
    Laid tail s' := by
  obtain ⟨rs, rest, holds, -⟩ := laid
  unfold setName at done
  split at done
  · cases done
  rename_i put
  cases done
  obtain ⟨rest', holds'⟩ := putRecord_tail (s := { s with isInline := false }) holds most
    (by simp [isName]) (by simp [nameOfName]) (fun _ => short) put
  exact .stream holds' (putRecord_rest put).1

theorem fileWrite_laid {off : Nat} {data : Bytes} (safe : RoomyLabel tail s (.write off data)) :
    Laid tail (fileWrite tail s off data) := by
  obtain ⟨rs, rest, holds, inlined⟩ := laid
  rw [fileWrite]
  split
  · rename_i inline
    have roomy : Roomy tail (encode rs).length ∧ max s.size (off + data.length) ≤ inlineMax := by
      rcases inline with ⟨isInline, -, fits⟩ | folded
      · exact ⟨(inlined isInline).1, Nat.max_le.mpr ⟨(inlined isInline).2, fits⟩⟩
      · have room := safe.1 folded
        rw [holds.records] at room
        simp only [folds, Bool.and_eq_true, decide_eq_true_eq] at folded
        exact ⟨room, by omega⟩
    exact .rewritten holds most roomy.1 roomy.2 (inlineWrite_bytes off data).1
      (inlineWrite_bytes off data).2
  · refine ⟨rs, rest, holds, fun isInline => ?_⟩
    simp only [Bool.and_eq_true, decide_eq_true_eq] at isInline
    obtain ⟨roomy, small⟩ := inlined isInline.1
    have nothing := safe.2 isInline.2
    exact ⟨roomy, by simp only [isInline.2, length_nil]; omega⟩

theorem truncate_laid (length : Nat) : Laid tail (truncate tail s length) := by
  obtain ⟨rs, rest, holds, inlined⟩ := laid
  rw [truncate]
  split
  · rename_i inline
    refine .rewritten holds most (inlined inline.1).1 inline.2 ?_ fun i before => ?_
    · split
      · exact overwrite_length _ _ _
      · rfl
    · split
      · exact overwrite_before _ _ (Nat.lt_add_right _ before)
      · rfl
  · exact .stream holds rfl

end

theorem step_laid (most : tail ≤ smallDataSize) {x y : Sys} {l : Label} (laid : Laid tail x.node)
    (safe : RoomyLabel tail x.node l) (taken : step tail x l = some y) : Laid tail y.node := by
  cases l with
  | set name value flags =>
    simp only [step] at taken
    split at taken
    · rename_i _ _ s fine done
      cases taken
      exact setxattr_laid laid most (by rintro rfl; cases fine) done
    · cases taken
  | remove name =>
    simp only [step] at taken
    split at taken
    · rename_i done
      cases taken
      exact removexattr_laid laid done
    · cases taken
  | write off data =>
    cases taken
    exact fileWrite_laid laid most safe
  | truncate length =>
    cases taken
    exact truncate_laid laid most _
  | rename newname =>
    simp only [step] at taken
    split at taken
    · cases taken
    split at taken
    · rename_i done
      cases taken
      exact setName_laid laid most (by omega) done
    · cases taken

/-- **Inline bytes and attribute records do not collide**, in every state that is reached by
calls on a new file, if the file only becomes inline while its records leave room. -/
theorem inline_bytes_apart {tail : Nat} (large : 792 ≤ tail) (most : tail ≤ smallDataSize)
    {own : List UInt8} {x₀ x : Sys} {ls : List Label} (created : Created own x₀)
    (safe : Guarded (step tail) (fun x => RoomyLabel tail x.node) x₀ ls)
    (ran : run (step tail) x₀ ls = some x) : BytesApart tail x.node := by
  obtain ⟨rs, rest, holds⟩ := created.good large
  have laid := run_inv
    (fun _ _ _ laid safe taken => step_laid most laid safe taken)
    (Laid.stream holds.tail created.isInline) safe ran
  exact laid.apart most

/-! ## Poles -/

def roomyTest (x : Sys) : Label → Bool
  | .write off data =>
    (!folds x.node off data ||
      decide ((encode (records (x.node.area.take 792))).length ≤ 268)) &&
      (data ≠ [] || off ≤ x.node.size)
  | _ => true

theorem roomyTest_sound (x : Sys) (l : Label) (passed : roomyTest x l = true) :
    RoomyLabel 792 x.node l := by
  cases l with
  | write off data =>
    simp only [roomyTest, Bool.and_eq_true, Bool.or_eq_true, decide_eq_true_eq] at passed
    refine ⟨fun folded => ?_, fun nothing => passed.2.resolve_left (fun some => some nothing)⟩
    rw [folded] at passed
    have small := passed.1.resolve_left (by simp)
    exact ⟨by omega, by unfold inlineMax; omega⟩
  | set | remove | truncate | rename => trivial

/-- A short attribute stays in the tail of a file that becomes inline. -/
theorem inline_bytes_apart_short :
    ∃ x, run (step 792) newFile [.set [97] [5] 0, .write 0 [1, 2], .write 500 [3]] = some x ∧
      BytesApart 792 x.node := by
  refine exists_run (by decide +kernel) fun x ran => ?_
  exact inline_bytes_apart (by decide) (by decide) newFile_created
    (Guarded.of_test roomyTest_sound (by decide +kernel)) ran

/-- **Inline bytes behind the tail**: an empty file with an attribute of 300 bytes becomes
inline with 500 bytes, of which the block has room for 453. -/
theorem inline_bytes_behind :
    ∃ x, run (step 792) newFile
        [.set [97] (List.replicate 300 5) 0, .write 0 (List.replicate 500 1)] = some x ∧
      ¬ BytesApart 792 x.node := by
  have ends : (run (step 792) newFile
      [.set [97] (List.replicate 300 5) 0, .write 0 (List.replicate 500 1)]).any (fun x =>
        x.node.isInline && decide (792 < inlineBase (x.node.area.take 792) + x.node.size)) =
      true := by decide +kernel
  rw [Option.any_eq_true] at ends
  obtain ⟨x, ran, behind⟩ := ends
  simp only [Bool.and_eq_true, decide_eq_true_eq] at behind
  exact ⟨x, ran, fun apart => absurd (apart behind.1).1 (by omega)⟩

end Argentum.Agfs.Xattr
