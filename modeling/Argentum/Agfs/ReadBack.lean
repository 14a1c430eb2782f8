/-
# Agfs.ReadBack — a block that was mapped for writing, looked up again

`agfs_bmap` for writing may have to map every file block up to the one it is asked for:
its loop extends the last direct run block by block, appends windows, and goes on in the
tables when all twelve runs are in use. `plan` follows that loop and notes only the runs it
touches, with their unbounded lengths before and after, and where the block comes to lie.

`read_back` says when a lookup afterwards gives the block the call returned and everything
that was mapped stays where it was: the block is not inside an appended window (the loop
returns the window's first block whichever block it was asked for) and no 16-bit length
drops blocks. A length that wrapped does no harm if the loop leaves the run behind for the
tables; `Lands` says so exactly.
-/
import Argentum.Agfs.StreamMap
import Argentum.Agfs.Ownership

namespace Argentum.Agfs.ReadBack

open List Agfs.Stream Run

/-! ## The allocation loop, planned -/

/-- A run the loop extends or appends: where it begins, and how many blocks it has before the
call and after it. -/
structure Touch where
  base : Nat
  before : Nat
  after : Nat
  deriving DecidableEq

/-- Where the block comes to lie. -/
inductive Landing where
  /-- In the last direct run, so many blocks behind the one the last round took first. -/
  | run (inside : Nat)
  /-- The direct runs are all in use: it is looked for in the tables of this stream. -/
  | table (w : Work)
  | failed

structure Plan where
  touches : List Touch
  landing : Landing

section Plans

variable (f : Format)

variable (w : Work) (block : Nat)

/-- The last of `nrun` direct runs, which had `before` blocks and is given `after`. -/
def touched (nrun before after : Nat) : List Touch :=
  ((w.stream.direct.take nrun).getLast?.map fun r => ⟨r.base f.agShift, before, after⟩).toList

/-- The last run cannot be extended: the tables, or a window for the next slot. -/
def planWindow (w : Work) (nrun covered : Nat) (later : Work → Nat → Plan) : Plan :=
  if numDirectBlocks ≤ nrun then ⟨[], .table w⟩
  else
    match w.space.ballocContig f.toGeometry f.bpb delallocWindow with
    | .error _ => ⟨[], .failed⟩
    | .ok (s, nb, wlen) =>
      if block < covered + wlen then ⟨[⟨nb, 0, wlen⟩], .run (block - covered)⟩
      else later ⟨s, { w.stream with
        direct := w.stream.direct.take nrun ++ [Run.make f.agShift nb wlen]
        maxDirectRange := covered + wlen }⟩ wlen

/-- The rounds of `growDirect`. -/
def plan (block : Nat) : Nat → Work → Nat → Nat → Nat → Nat → Plan
  | 0, _, _, _, _, _ => ⟨[], .failed⟩
  | fuel + 1, w, nrun, before, lastLen, covered =>
    match if 0 < nrun ∧ lastLen ≠ 0 then
        w.stream.direct[nrun - 1]?.bind fun r => takeNext f w.space r lastLen else none with
    | some (s, _) =>
      if block < covered + 1 then ⟨touched f w nrun before (lastLen + 1), .run 0⟩
      else plan block fuel ⟨s, { w.stream with
        direct := w.stream.direct.modify (nrun - 1) Run.extend
        maxDirectRange := covered + 1 }⟩ nrun before (lastLen + 1) (covered + 1)
    | none =>
      let rest := planWindow f block w nrun covered fun w wlen =>
        plan block fuel w (nrun + 1) 0 wlen (covered + wlen)
      ⟨touched f w nrun before lastLen ++ rest.touches, rest.landing⟩

/-- The block is not inside a window, and the lengths keep what was mapped: in 16 bits, or, of
runs that the loop leaves behind for the tables, at least what they had and something. -/
def Lands (p : Plan) : Prop :=
  match p.landing with
  | .run inside => inside = 0 ∧ ∀ q ∈ p.touches, q.after < 2 ^ 16
  | .table w => FillsRoom f w block ∧ ∀ nb w', indirectBmap f block 2 w = (.ok nb, w') →
      ∀ q ∈ p.touches, max q.before 1 ≤ q.after % 2 ^ 16
  | .failed => True

/-- The direct runs' last length, as the loop begins with it. -/
def lastLength (st : Stream) (k : Nat) : Nat :=
  (st.direct[k - 1]?.map fun r => r.len.toNat).getD 0

def planOf (block k covered : Nat) : Plan :=
  plan f block (block + 1 - covered) w k (lastLength w.stream k) (lastLength w.stream k) covered

/-- The call asks for a block that is mapped, or for one that it maps where it says. -/
def ReadsBack : Prop :=
  match walkDirect f w.stream block with
  | .hit _ => True
  | .full _ => FillsRoom f w block
  | .slot k covered => Lands f block (planOf f w block k covered)

/-- A call that returns a block has mapped the file block to it, and moved nothing. -/
def Agrees : Prop :=
  ∀ nb w', bmapWrite f w block = (.ok nb, w') →
    bmapRead f w'.stream block = some nb ∧
      ∀ c b, bmapRead f w.stream c = some b → bmapRead f w'.stream c = some b

end Plans

/-! ## What the loop does -/

section Rounds

variable {f : Format} {block : Nat}

/-- The blocks of the runs touched, their lengths without a bound. -/
def blocksOf (touches : List Touch) : List Nat :=
  touches.flatMap fun q => List.range' q.base q.after

/-- The run as the stream has it. -/
def Matches (f : Format) (r : Run) (q : Touch) : Prop :=
  r.base f.agShift = q.base ∧ r.len.toNat = q.after % 2 ^ 16 ∧
    ¬ (r.allocationGroup = 0 ∧ r.start = 0)

/-- Behind the runs in front, the stream has the runs touched; its tables are as before. -/
def Grew (f : Format) (front : List Run) (touches : List Touch) (tables : List (List Run))
    (st : Stream) : Prop :=
  st.tables = tables ∧ ∃ runs, st.direct = front ++ runs ∧ List.Forall₂ (Matches f) runs touches

/-- What the loop comes to, as planned: `start` file blocks lie before the runs touched. -/
def Landed (f : Format) (block : Nat) (front : List Run) (start : Nat) (tables : List (List Run))
    (p : Plan) (result : Except Errno Nat × Work) : Prop :=
  match p.landing with
  | .run inside => ∃ nb w' xs len, result = (.ok nb, w') ∧
      Grew f front p.touches tables w'.stream ∧
      blocksOf p.touches = xs ++ List.range' nb len ∧ start + xs.length + inside = block ∧
      inside < len ∧ len ≤ delallocWindow ∧ w'.stream.maxDirectRange = start + xs.length + len
  | .table v => result = indirectBmap f block 2 v ∧ Grew f front p.touches tables v.stream ∧
      start + (blocksOf p.touches).length ≤ block ∧ v.stream.direct.length = numDirectBlocks ∧
      f.used v.space 0 = true
  | .failed => ∃ e w', result = (.error e, w')

@[simp] theorem blocksOf_cons (q : Touch) (touches : List Touch) :
    blocksOf (q :: touches) = List.range' q.base q.after ++ blocksOf touches := rfl

theorem extend_len_mod (r : Run) : r.extend.len.toNat = (r.len.toNat + 1) % 2 ^ 16 := rfl

theorem make_matches {first count : Nat} (nonzero : first ≠ 0) (inside : first < f.numBlocks)
    (positive : 0 < count) (few : count ≤ delallocWindow) (before : Nat) :
    Matches f (make f.agShift first count) ⟨first, before, count⟩ := by
  have most := f.numBlocks_le
  have window : delallocWindow = 256 := rfl
  have short : count < 2 ^ 16 := by omega
  refine ⟨make_base f.shift_le (by omega), ?_,
    (isEmpty_eq_false.mp (make_used nonzero inside positive few)).2⟩
  rw [make_len short, Nat.mod_eq_of_lt short]

/-- A round put one more run in front of the rest. -/
theorem Landed.cons {front : List Run} {start : Nat} {tables : List (List Run)}
    {r : Run} {q : Touch} {rest : Plan} {result : Except Errno Nat × Work} (here : Matches f r q)
    (landed : Landed f block (front ++ [r]) (start + q.after) tables rest result) :
    Landed f block front start tables ⟨q :: rest.touches, rest.landing⟩ result := by
  have grew : ∀ {st}, Grew f (front ++ [r]) rest.touches tables st →
      Grew f front (q :: rest.touches) tables st := by
    rintro st ⟨tables, runs, direct, matching⟩
    exact ⟨tables, r :: runs, by rw [direct, append_assoc, singleton_append], .cons here matching⟩
  unfold Landed at landed ⊢
  cases landing : rest.landing with
  | run inside =>
    rw [landing] at landed
    obtain ⟨nb, w', xs, len, done, more, blocks, position, below, few, range⟩ := landed
    refine ⟨nb, w', List.range' q.base q.after ++ xs, len, done, grew more, ?_, ?_, below, few, ?_⟩
    · rw [blocksOf_cons, blocks, append_assoc]
    · rw [length_append, length_range']
      omega
    · rw [length_append, length_range']
      omega
  | table v =>
    rw [landing] at landed
    obtain ⟨done, more, position, all, super⟩ := landed
    refine ⟨done, grew more, ?_, all, super⟩
    rw [blocksOf_cons, length_append, length_range']
    omega
  | failed =>
    rw [landing] at landed
    exact landed

/-- The loop has a last direct run, of `lastLen` blocks by its own count, and has not reached the
block. -/
structure Head (f : Format) (block : Nat) (front : List Run) (r : Run) (start lastLen : Nat)
    (w : Work) : Prop where
  direct : w.stream.direct = front ++ [r]
  few : front.length < numDirectBlocks
  len : r.len.toNat = lastLen % 2 ^ 16
  nonzero : lastLen ≠ 0
  place : ¬ (r.allocationGroup = 0 ∧ r.start = 0)
  super : f.used w.space 0 = true
  reached : start + lastLen ≤ block

/-- The runs appended in the call begin at blocks that were free. -/
def Fresh (f : Format) (s : Space) (touches : List Touch) : Prop :=
  ∀ q ∈ touches, q.before = 0 ∧ 0 < q.after ∧ f.used s q.base = false

theorem Fresh.earlier {s s' : Space} {bs : List Nat} {touches : List Touch}
    (fresh : Fresh f s' touches) (takes : Takes f s s' bs) : Fresh f s touches := by
  intro q member
  obtain ⟨new, some, free⟩ := fresh q member
  refine ⟨new, some, Bool.eq_false_iff.mpr fun used => ?_⟩
  rw [takes.still used] at free
  cases free

/-- What the loop does with a last run, it does as planned: the run is the first one touched. -/
def Planned (f : Format) (block fuel : Nat) : Prop :=
  ∀ (front : List Run) (r : Run) (start lastLen before : Nat) (w : Work),
    Head f block front r start lastLen w → block < fuel + (start + lastLen) →
      Landed f block front start w.stream.tables
          (plan f block fuel w (front.length + 1) before lastLen (start + lastLen))
          (growDirect f block fuel w (front.length + 1) lastLen (start + lastLen)) ∧
        ∃ after rest, (plan f block fuel w (front.length + 1) before lastLen
            (start + lastLen)).touches = ⟨r.base f.agShift, before, after⟩ :: rest ∧
          lastLen ≤ after ∧ Fresh f w.space rest

theorem planWindow_landed {fuel : Nat} (planned : Planned f block fuel) {w : Work}
    {lastLen covered : Nat} (most : w.stream.direct.length ≤ numDirectBlocks)
    (super : f.used w.space 0 = true) (reached : covered ≤ block)
    (enough : block < fuel + 1 + covered) (stuck : (if 0 < w.stream.direct.length ∧ lastLen ≠ 0 then
      w.stream.direct[w.stream.direct.length - 1]?.bind fun r => takeNext f w.space r lastLen
      else none) = none) :
    Landed f block w.stream.direct covered w.stream.tables
        (planWindow f block w w.stream.direct.length covered fun v wlen =>
          plan f block fuel v (w.stream.direct.length + 1) 0 wlen (covered + wlen))
        (growDirect f block (fuel + 1) w w.stream.direct.length lastLen covered) ∧
      Fresh f w.space (planWindow f block w w.stream.direct.length covered fun v wlen =>
        plan f block fuel v (w.stream.direct.length + 1) 0 wlen (covered + wlen)).touches := by
  rw [growDirect, stuck, planWindow]
  split
  · rename_i all
    have count := Nat.le_antisymm most all
    exact ⟨⟨rfl, ⟨rfl, [], by rw [append_nil], .nil⟩, reached, count, super⟩, by simp [Fresh]⟩
  · rename_i notAll
    cases window : w.space.ballocContig f.toGeometry f.bpb delallocWindow with
    | error e => exact ⟨⟨e, w, rfl⟩, by simp [Fresh]⟩
    | ok found =>
      obtain ⟨s, nb, wlen⟩ := found
      obtain ⟨positive, few, group, inside, takes⟩ := ballocContig_takes (by decide) window
      have member : nb ∈ List.range' nb wlen := by
        rw [mem_range'_1]
        omega
      have free := takes.free nb member
      have nonzero := takes.fresh super member
      simp only [take_length]
      by_cases within : block < covered + wlen
      · rw [if_pos within, if_pos within]
        refine ⟨⟨nb, _, [], wlen, rfl, ⟨rfl, _, rfl, ?_⟩, ?_, ?_, ?_, few, rfl⟩, ?_⟩
        · exact .cons (make_matches nonzero inside positive few 0) .nil
        · simp [blocksOf]
        · simp only [length_nil]
          omega
        · omega
        · simpa [Fresh] using ⟨positive, free⟩
      · rw [if_neg within, if_neg within]
        have head : Head f block w.stream.direct (make f.agShift nb wlen) covered wlen
            ⟨s, { w.stream with
              direct := w.stream.direct ++ [make f.agShift nb wlen]
              maxDirectRange := covered + wlen }⟩ := by
          obtain ⟨_, len, place⟩ := make_matches nonzero inside positive few 0
          exact ⟨rfl, Nat.lt_of_not_le notAll, len, by omega, place, takes.still super, by omega⟩
        obtain ⟨landed, after, rest, touches, longer, fresh⟩ :=
          planned w.stream.direct _ covered wlen 0 _ head (by omega)
        refine ⟨landed, ?_⟩
        rw [touches]
        refine forall_mem_cons.mpr ⟨⟨rfl, Nat.lt_of_lt_of_le positive longer, ?_⟩,
          fresh.earlier takes⟩
        rw [(make_matches nonzero inside positive few 0).1]
        exact free

theorem growDirect_planned (block fuel : Nat) : Planned f block fuel := by
  induction fuel with
  | zero =>
    intro front r start lastLen before w head enough
    have reached := head.reached
    omega
  | succ fuel ih =>
    intro front r start lastLen before w head enough
    have length : w.stream.direct.length = front.length + 1 := by rw [head.direct]; simp
    have last : w.stream.direct[front.length]? = some r := by rw [head.direct]; simp
    have extension : (if 0 < front.length + 1 ∧ lastLen ≠ 0 then
        w.stream.direct[front.length + 1 - 1]?.bind fun r => takeNext f w.space r lastLen
        else none) = takeNext f w.space r lastLen := by
      rw [if_pos ⟨Nat.succ_pos _, head.nonzero⟩, Nat.add_sub_cancel, last, Option.bind_some]
    have here : ∀ after, touched f w (front.length + 1) before after =
        [⟨r.base f.agShift, before, after⟩] := by
      intro after
      rw [touched, ← length, take_length, head.direct]
      simp
    cases taken : takeNext f w.space r lastLen with
    | some found =>
      obtain ⟨s, nb⟩ := found
      obtain ⟨next, takes⟩ := takeNext_takes taken
      have modified : w.stream.direct.modify front.length extend = front ++ [r.extend] := by
        rw [head.direct, modify_behind]
      have len : r.extend.len.toNat = (lastLen + 1) % 2 ^ 16 := by
        rw [extend_len_mod, head.len, Nat.mod_add_mod]
      rw [growDirect, plan, extension, taken]
      simp only [Nat.add_sub_cancel, here, modified]
      split
      · have reached := head.reached
        refine ⟨⟨nb, _, List.range' (r.base f.agShift) lastLen, 1, rfl, ⟨rfl, _, rfl, ?_⟩,
          ?_, ?_, Nat.one_pos, by decide, ?_⟩, lastLen + 1, [], rfl, by omega, by simp [Fresh]⟩
        · exact .cons ⟨rfl, len, head.place⟩ .nil
        · rw [blocksOf_cons, List.range'_concat, next]
          simp [blocksOf]
        · rw [length_range']
          omega
        · rw [length_range']
      · have head' : Head f block front r.extend start (lastLen + 1)
            ⟨s, { w.stream with
              direct := front ++ [r.extend]
              maxDirectRange := start + lastLen + 1 }⟩ :=
          ⟨rfl, head.few, len, Nat.succ_ne_zero _, head.place, takes.still head.super, by omega⟩
        obtain ⟨landed, after, rest, touches, most, fresh⟩ :=
          ih front r.extend start (lastLen + 1) before _ head' (by omega)
        exact ⟨landed, after, rest, touches, by omega, fresh.earlier takes⟩
    | none =>
      have stuck : (if 0 < w.stream.direct.length ∧ lastLen ≠ 0 then
          w.stream.direct[w.stream.direct.length - 1]?.bind fun r =>
            takeNext f w.space r lastLen else none) = none := by
        rw [length, extension, taken]
      obtain ⟨landed, fresh⟩ := planWindow_landed ih (by rw [length]; exact head.few)
        head.super head.reached (by omega) stuck
      rw [plan, extension, taken]
      simp only [here]
      rw [length] at landed fresh
      rw [head.direct] at landed
      exact ⟨landed.cons ⟨rfl, head.len, head.place⟩, lastLen, _, rfl, le_rfl, fresh⟩

end Rounds

/-! ## Lookups afterwards -/

section Lookups

variable {f : Format} {st : Stream} {block : Nat} {agShift covered k size : Nat} {runs : List Run}
  {disk ends : Nat}

/-- Whatever the runs are, what a walk finds lies within the blocks they count. -/
theorem lt_of_walk_hit (hit : walk agShift size block runs k covered = .hit disk) :
    block < covered + (runData agShift runs).length := by
  induction runs generalizing k covered with
  | nil =>
    rw [walk] at hit
    split at hit <;> cases hit
  | cons r rest ih =>
    rw [runData_cons, length_append, blocks_length]
    rw [walk] at hit
    split at hit
    · cases hit
    split at hit
    · omega
    · have later := ih hit
      omega

/-- A walk comes to the array's end only over used slots. -/
theorem used_of_walk_full (full : walk agShift size block runs k covered = .full ends) :
    Used runs := by
  induction runs generalizing k covered with
  | nil => exact forall_mem_nil _
  | cons r rest ih =>
    rw [walk] at full
    split at full
    · cases full
    rename_i used
    split at full
    · cases full
    · exact forall_mem_cons.mpr ⟨Bool.eq_false_iff.mpr used, ih full⟩

theorem le_of_walk_full (full : walk agShift size block runs k covered = .full ends) :
    ends = covered + (runData agShift runs).length := by
  induction runs generalizing k covered with
  | nil =>
    rw [walk] at full
    split at full <;> cases full
    rfl
  | cons r rest ih =>
    rw [runData_cons, length_append, blocks_length]
    rw [walk] at full
    split at full
    · cases full
    split at full
    · cases full
    · rw [ih full]
      omega

theorem lt_of_seek_hit {t : Nat} {tables : List (List Run)}
    (hit : seek agShift size block tables t covered = .hit disk) :
    block < covered + (runData agShift tables.flatten).length := by
  induction tables generalizing t covered with
  | nil => cases hit
  | cons runs rest ih =>
    rw [flatten_cons, runData_append, length_append]
    rw [seek] at hit
    split at hit
    · rename_i disk' here
      have within := lt_of_walk_hit here
      omega
    · cases hit
    · rename_i ends here
      have later := ih hit
      rw [le_of_walk_full here] at later
      omega

/-- Beyond what the direct runs count and what the tables count, nothing is found. -/
theorem bmapRead_none (direct : (st.directData f.agShift).length ≤ block)
    (tables : (st.tableData f.agShift).length ≤ tableOffset st block) :
    bmapRead f st block = none := by
  rw [bmapRead]
  cases walked : walkDirect f st block with
  | hit disk =>
    have within := lt_of_walk_hit walked
    rw [Nat.zero_add] at within
    exact absurd within (Nat.not_lt.mpr direct)
  | slot k covered => rfl
  | full covered =>
    cases sought : seekTables f st block with
    | hit disk =>
      have within := lt_of_seek_hit sought
      rw [Nat.zero_add] at within
      exact absurd within (Nat.not_lt.mpr tables)
    | slot t j covered => rfl
    | none t => rfl

end Lookups

/-! ## The runs touched, in the stream -/

section Stored

variable {f : Format} {runs : List Run} {touches : List Touch}

variable (stored : List.Forall₂ (Matches f) runs touches)

include stored

theorem length_le : (runData f.agShift runs).length ≤ (blocksOf touches).length := by
  induction stored with
  | nil => exact le_rfl
  | @cons r q runs touches here _ ih =>
    rw [runData_cons, blocksOf_cons, length_append, length_append, blocks_length,
      length_range', here.2.1]
    omega

/-- A length that does not fit in 16 bits leaves out at least as many blocks as these count. -/
theorem length_short (wrapped : ∃ q ∈ touches, 2 ^ 16 ≤ q.after) :
    (runData f.agShift runs).length + 2 ^ 16 ≤ (blocksOf touches).length := by
  induction stored with
  | nil =>
    obtain ⟨q, member, _⟩ := wrapped
    cases member
  | @cons r q runs touches here rest ih =>
    rw [runData_cons, blocksOf_cons, length_append, length_append, blocks_length,
      length_range', here.2.1]
    by_cases long : 2 ^ 16 ≤ q.after
    · have others := length_le rest
      omega
    · have later : ∃ q ∈ touches, 2 ^ 16 ≤ q.after := by
        obtain ⟨p, member, much⟩ := wrapped
        rcases mem_cons.mp member with rfl | inRest
        · exact absurd much long
        · exact ⟨p, inRest, much⟩
      have others := ih later
      omega

/-- Lengths that fit are stored as they are. -/
theorem stored_blocks (fit : ∀ q ∈ touches, q.after < 2 ^ 16) :
    runData f.agShift runs = blocksOf touches := by
  induction stored with
  | nil => rfl
  | @cons r q runs touches here _ ih =>
    obtain ⟨first, others⟩ := forall_mem_cons.mp fit
    rw [runData_cons, blocksOf_cons, ih others, Run.blocks, here.1, here.2.1,
      Nat.mod_eq_of_lt first]

theorem stored_used (some : ∀ q ∈ touches, q.after % 2 ^ 16 ≠ 0) : Used runs := by
  induction stored with
  | nil => exact forall_mem_nil _
  | @cons r q runs touches here _ ih =>
    obtain ⟨first, others⟩ := forall_mem_cons.mp some
    refine forall_mem_cons.mpr ⟨isEmpty_eq_false.mpr ⟨fun none => first ?_, here.2.2⟩, ih others⟩
    rw [← here.2.1, none]
    rfl

theorem stored_empty (none : ∃ q ∈ touches, q.after % 2 ^ 16 = 0) :
    ∃ r ∈ runs, r.isEmpty = true := by
  induction stored with
  | nil =>
    obtain ⟨q, member, _⟩ := none
    cases member
  | @cons r q runs touches here _ ih =>
    obtain ⟨p, member, zero⟩ := none
    rcases mem_cons.mp member with rfl | inRest
    · have length : r.len = 0 := UInt16.toNat_inj.mp (here.2.1.trans zero)
      simp [Run.isEmpty, length]
    · obtain ⟨r', inRuns, empty⟩ := ih ⟨p, inRest, zero⟩
      exact ⟨r', mem_cons_of_mem _ inRuns, empty⟩

end Stored

/-! ## The call -/

/-- A stream the walks read as it is meant, among others on a volume whose superblock's block is
in use. -/
structure Formed (f : Format) (others : Nat → Prop) (w : Work) : Prop where
  used : ∀ r ∈ w.stream.direct, r.isEmpty = false
  few : w.stream.direct.length ≤ numDirectBlocks
  tabled : Tabled f w.stream
  fits : Fits f (fun _ => True) others w
  super : others 0

/-- The first run touched is the last one there was, if any; the others are new. -/
def Begins (f : Format) (w : Work) (touches : List Touch) : Prop :=
  match w.stream.direct.getLast? with
  | none => Fresh f w.space touches
  | some r => ∃ after rest, touches = ⟨r.base f.agShift, r.len.toNat, after⟩ :: rest ∧
      r.len.toNat ≤ after ∧ Fresh f w.space rest

section Call

variable {f : Format} {others : Nat → Prop} {w : Work} {block : Nat} {b c : Nat} {st : Stream}
  {touches : List Touch} {tables : List (List Run)} {v : Work}

theorem planOf_landed (formed : Formed f others w) (few : w.stream.direct.length < numDirectBlocks)
    (beyond : (w.stream.directData f.agShift).length ≤ block) :
    Landed f block w.stream.direct.dropLast (runData f.agShift w.stream.direct.dropLast).length
        w.stream.tables
        (planOf f w block w.stream.direct.length (w.stream.directData f.agShift).length)
        (growDirect f block (block + 1 - (w.stream.directData f.agShift).length) w
          w.stream.direct.length (lastLength w.stream w.stream.direct.length)
          (w.stream.directData f.agShift).length) ∧
      Begins f w (planOf f w block w.stream.direct.length
        (w.stream.directData f.agShift).length).touches := by
  have super := formed.fits.kept 0 formed.super
  have cases := eq_nil_or_concat' w.stream.direct
  rcases cases with empty | ⟨front, r, direct⟩
  · have data : (w.stream.directData f.agShift).length = 0 := by
      rw [directData, empty]
      rfl
    have last : lastLength w.stream w.stream.direct.length = 0 := by
      rw [lastLength, empty]
      rfl
    have stuck : (if 0 < w.stream.direct.length ∧ 0 ≠ 0 then
        w.stream.direct[w.stream.direct.length - 1]?.bind fun r => takeNext f w.space r 0
        else none) = none := if_neg fun both => both.2 rfl
    obtain ⟨landed, fresh⟩ := planWindow_landed (growDirect_planned block block)
      (Nat.le_of_lt few) super (Nat.zero_le block) (Nat.lt_succ_self block) stuck
    have planned : planOf f w block w.stream.direct.length 0 =
        planWindow f block w w.stream.direct.length 0 fun v wlen =>
          plan f block block v (w.stream.direct.length + 1) 0 wlen (0 + wlen) := by
      rw [planOf, last, Nat.sub_zero, plan, stuck]
      simp only [touched, empty, take_nil, List.getLast?_nil, Option.map_none,
        Option.toList_none, nil_append]
    rw [data]
    refine ⟨?_, ?_⟩
    · rw [empty] at landed ⊢
      exact landed
    · rw [Begins, empty]
      rw [empty] at fresh
      exact fresh
  · have length : w.stream.direct.length = front.length + 1 := by rw [direct]; simp
    have data : (w.stream.directData f.agShift).length =
        (runData f.agShift front).length + r.len.toNat := by
      rw [directData, direct, runData_append]
      simp
    have last : lastLength w.stream (front.length + 1) = r.len.toNat := by
      rw [lastLength, direct, Nat.add_sub_cancel, List.getElem?_concat_length]
      rfl
    have inUse := isEmpty_eq_false.mp (formed.used r (by rw [direct]; simp))
    have head : Head f block front r (runData f.agShift front).length r.len.toNat w := by
      refine ⟨direct, by omega, (Nat.mod_eq_of_lt r.len.toNat_lt).symm, fun zero => ?_, inUse.2,
        super, data ▸ beyond⟩
      exact inUse.1 (UInt16.toNat_inj.mp zero)
    obtain ⟨landed, begins⟩ := growDirect_planned block
      (block + 1 - ((runData f.agShift front).length + r.len.toNat)) front r _ _ r.len.toNat w head
      (by omega)
    rw [planOf, Begins, data, length, last, direct, dropLast_concat, List.getLast?_concat]
    exact ⟨landed, begins⟩

/-- What the lengths hold of the runs touched is enough for what was mapped. -/
def Kept (touches : List Touch) : Prop := ∀ q ∈ touches, max q.before 1 ≤ q.after % 2 ^ 16

theorem Begins.kept (formed : Formed f others w)
    (begins : Begins f w touches) (fit : ∀ q ∈ touches, q.after < 2 ^ 16) : Kept touches := by
  have new : ∀ {rest : List Touch}, Fresh f w.space rest → (∀ q ∈ rest, q.after < 2 ^ 16) →
      Kept rest := by
    intro rest fresh fit q member
    obtain ⟨before, some, _⟩ := fresh q member
    rw [Nat.mod_eq_of_lt (fit q member)]
    omega
  unfold Begins at begins
  split at begins
  · exact new begins fit
  rename_i r last
  obtain ⟨after, rest, rfl, longer, fresh⟩ := begins
  obtain ⟨first, others⟩ := forall_mem_cons.mp fit
  refine forall_mem_cons.mpr ⟨?_, new fresh others⟩
  have inUse := (isEmpty_eq_false.mp (formed.used r (mem_of_getLast? last))).1
  have positive : r.len.toNat ≠ 0 := fun zero => inUse (UInt16.toNat_inj.mp zero)
  have short : after < 2 ^ 16 := first
  show max r.len.toNat 1 ≤ after % 2 ^ 16
  omega

theorem Grew.used (formed : Formed f others w)
    (grew : Grew f w.stream.direct.dropLast touches tables st)
    (some : ∀ q ∈ touches, q.after % 2 ^ 16 ≠ 0) : Used st.direct := by
  obtain ⟨_, runs, direct, stored⟩ := grew
  rw [direct]
  refine forall_mem_append.mpr ⟨fun r old => ?_, stored_used stored some⟩
  exact formed.used r (dropLast_subset _ old)

/-- Then the direct runs map what they mapped, and more behind it. -/
theorem Grew.longer
    (grew : Grew f w.stream.direct.dropLast touches tables st) (begins : Begins f w touches)
    (kept : Kept touches) : w.stream.directData f.agShift <+: st.directData f.agShift := by
  obtain ⟨_, runs, direct, stored⟩ := grew
  unfold Begins at begins
  rw [directData, directData, direct, runData_append]
  split at begins
  · rename_i empty
    rw [List.getLast?_eq_none_iff.mp empty]
    exact nil_prefix
  · rename_i r last
    obtain ⟨after, rest, rfl, longer, _⟩ := begins
    obtain ⟨r', runs', here, stored', rfl⟩ := forall₂_cons_right_iff.mp stored
    have whole := (dropLast_append_getLast? r last).symm
    have most := Nat.le_trans (Nat.le_max_left _ _) (kept _ mem_cons_self)
    rw [runData_cons]
    nth_rewrite 1 [whole]
    rw [runData_append, runData_cons, runData_nil, append_nil]
    refine (prefix_append_right_inj _).mpr (List.IsPrefix.trans ?_ (prefix_append _ _))
    rw [Run.blocks, Run.blocks, here.1, here.2.1, ← Nat.add_sub_of_le most, ← List.range'_append_1]
    exact prefix_append _ _

theorem read_direct (formed : Formed f others w)
    (here : (w.stream.directData f.agShift)[c]? = some b) : bmapRead f w.stream c = some b := by
  rw [bmapRead_data formed.used formed.tabled, if_pos (List.getElem?_eq_some_iff.mp here).1, here]

/-- With a free direct slot, only the direct runs map blocks. -/
theorem mapped_direct (formed : Formed f others w) (few : w.stream.direct.length < numDirectBlocks)
    (mapped : bmapRead f w.stream c = some b) : (w.stream.directData f.agShift)[c]? = some b := by
  rw [bmapRead_data formed.used formed.tabled] at mapped
  split at mapped
  · exact mapped
  · cases mapped

theorem keeps_of_longer (formed : Formed f others w)
    (few : w.stream.direct.length < numDirectBlocks) (used : Used st.direct) (tabled : Tabled f st)
    (longer : w.stream.directData f.agShift <+: st.directData f.agShift)
    (mapped : bmapRead f w.stream c = some b) : bmapRead f st c = some b := by
  obtain ⟨more, data⟩ := longer
  have old := mapped_direct formed few mapped
  have here : (st.directData f.agShift)[c]? = some b := by
    rw [← data, List.getElem?_append_left (List.getElem?_eq_some_iff.mp old).1, old]
  rw [bmapRead_data used tabled, if_pos (List.getElem?_eq_some_iff.mp here).1, here]

/-- In the tables, the block is found where the call says, and what was found is. -/
theorem tables_read {w' : Work} {nb : Nat} (used : Used v.stream.direct)
    (all : v.stream.direct.length = numDirectBlocks) (tabled : Tabled f v.stream)
    (super : f.used v.space 0 = true)
    (beyond : (v.stream.directData f.agShift).length ≤ block) (room : FillsRoom f v block)
    (done : indirectBmap f block 2 v = (.ok nb, w')) :
    bmapRead f w'.stream block = some nb ∧ Tabled f w'.stream ∧
      w'.stream.direct = v.stream.direct ∧
      ∀ c b, bmapRead f v.stream c = some b → bmapRead f w'.stream c = some b := by
  obtain ⟨tabled', direct, range, grew⟩ := indirectBmap_tables tabled super room done
  have data : w'.stream.directData f.agShift = v.stream.directData f.agShift := by
    rw [directData, direct, directData]
  have offset : ∀ c, tableOffset w'.stream c = tableOffset v.stream c := fun c => by
    rw [tableOffset, range, tableOffset]
  have notFew : ¬ v.stream.direct.length < numDirectBlocks := by omega
  have read' : ∀ c, bmapRead f w'.stream c =
      if c < (v.stream.directData f.agShift).length then (v.stream.directData f.agShift)[c]?
      else (w'.stream.tableData f.agShift)[tableOffset v.stream c]? := fun c => by
    rw [bmapRead_data (direct ▸ used) tabled', direct, if_neg notFew, data, offset]
  refine ⟨?_, tabled', direct, fun c b mapped => ?_⟩
  · rw [read', if_neg (Nat.not_lt.mpr beyond)]
    rcases grew with ⟨same, found⟩ | ⟨here, more⟩
    · rw [tableData, same]
      exact found
    · rw [more, here, List.getElem?_append_right le_rfl, Nat.sub_self]
      rfl
  · rw [bmapRead_data used tabled, if_neg notFew] at mapped
    rw [read']
    split
    · rename_i within
      rwa [if_pos within] at mapped
    · rename_i behind
      rw [if_neg behind] at mapped
      rcases grew with ⟨same, _⟩ | ⟨_, more⟩
      · rw [tableData, same]
        exact mapped
      · rw [more, List.getElem?_append_left (List.getElem?_eq_some_iff.mp mapped).1, mapped]

/-- A table's run without room is extended all the same, and then the block is not found. -/
theorem tables_lost (tabled : Tabled f v.stream)
    (beyond : (v.stream.directData f.agShift).length ≤ block) (full : ¬ FillsRoom f v block) :
    ∃ nb w', indirectBmap f block 2 v = (.ok nb, w') ∧ bmapRead f w'.stream block = none := by
  simp only [FillsRoom, FillSafe, not_forall] at full
  obtain ⟨t, j, covered, slot, near, r, found, positive, next, wraps⟩ := full
  rcases seek_cases tabled (tableOffset v.stream block) with ⟨disk, _, ends⟩ |
    ⟨past, ⟨front, runs, rest, split, _, _, empty, ends⟩ | ⟨_, ends⟩⟩
  · rw [seekTables, ends] at slot
    cases slot
  · have sought := slot
    rw [seekTables, ends] at slot
    cases slot
    have array : v.stream.tables.getD front.length [] = runs := by
      rw [split]
      simp
    rw [array] at found
    obtain ⟨⟨s, nb⟩, taken⟩ := Option.isSome_iff_exists.mp next
    have extension : (runs[runs.length - 1]?.bind fun r =>
        if 0 < runs.length then takeNext f v.space r r.len.toNat else none) = some (s, nb) := by
      rw [found, Option.bind_some, if_pos positive, taken]
    refine ⟨nb, ⟨s, { v.stream with
      tables := v.stream.tables.modify front.length fun l =>
        l.modify (runs.length - 1) extend }⟩, ?_, bmapRead_none beyond ?_⟩
    · rw [indirectBmap, sought]
      simp only [if_neg near, fillSlot, array, extension]
    · -- the wrapped run counts no blocks any more
      have zero : r.extend.len.toNat = 0 := by
        have small := r.len.toNat_lt
        rw [extend_len_mod]
        unfold Unwrapped at wraps
        omega
      obtain ⟨pre, rfl⟩ : ∃ pre, runs = pre ++ [r] := by
        rcases eq_nil_or_concat' runs with rfl | ⟨pre, r', rfl⟩
        · cases found
        refine ⟨pre, ?_⟩
        rw [length_append, length_singleton, Nat.add_sub_cancel,
          List.getElem?_concat_length] at found
        cases found
        rfl
      have behind := List.getElem?_eq_none_iff.mp past
      have length : (pre ++ [r]).length - 1 = pre.length := by simp
      show (runData f.agShift (v.stream.tables.modify front.length _).flatten).length ≤
        tableOffset v.stream block
      rw [split, modify_behind, length, modify_behind]
      rw [tableData, split] at behind
      simp only [flatten_append, flatten_cons, runData_append, length_append, runData_cons,
        blocks_length] at behind ⊢
      omega
  · rw [seekTables, ends] at slot
    cases slot

section

variable (formed : Formed f others w) (few : w.stream.direct.length < numDirectBlocks)
  {touches : List Touch}

include formed few

/-- The block is in a direct run: the call agrees with a lookup unless it is inside a window or a
length wraps. -/
theorem run_agrees (small : block < 2 ^ 22) {inside : Nat}
    (landed : Landed f block w.stream.direct.dropLast
      (runData f.agShift w.stream.direct.dropLast).length w.stream.tables ⟨touches, .run inside⟩
      (bmapWrite f w block)) (begins : Begins f w touches) :
    Agrees f w block ↔ inside = 0 ∧ ∀ q ∈ touches, q.after < 2 ^ 16 := by
  obtain ⟨nb, w', xs, len, done, grew, blocks, position, below, window, range⟩ := landed
  have tables := grew.1
  have tabled : Tabled f w'.stream := ⟨tables ▸ formed.tabled.tables, tables ▸ formed.tabled.dense⟩
  have fitRead : (∀ q ∈ touches, q.after < 2 ^ 16) → (∀ r ∈ w'.stream.direct, r.isEmpty = false) ∧
      bmapRead f w'.stream block = some (nb + inside) := by
    intro fit
    have kept := begins.kept formed fit
    have used := grew.used formed fun q member zero => by
        have some := kept q member
        omega
    obtain ⟨_, runs, direct, stored⟩ := grew
    have data : w'.stream.directData f.agShift = runData f.agShift w.stream.direct.dropLast ++
        (xs ++ List.range' nb len) := by
      rw [directData, direct, runData_append, stored_blocks stored fit, blocks]
    have here : (w'.stream.directData f.agShift)[block]? = some (nb + inside) := by
      rw [data, ← append_assoc, List.getElem?_append_right (by rw [length_append]; omega),
        length_append]
      have index : block - ((runData f.agShift w.stream.direct.dropLast).length + xs.length) =
          inside := by omega
      rw [index, List.getElem?_range' below, Nat.one_mul]
    exact ⟨used, by rw [bmapRead_data used tabled, if_pos (List.getElem?_eq_some_iff.mp here).1,
      here]⟩
  constructor
  · intro agrees
    obtain ⟨read, _⟩ := agrees nb w' done
    have fit : ∀ q ∈ touches, q.after < 2 ^ 16 := by
      by_contra wrapped
      push Not at wrapped
      obtain ⟨_, runs, direct, stored⟩ := grew
      have short := length_short stored wrapped
      have most : delallocWindow = 256 := rfl
      rw [blocks, length_append, length_range'] at short
      have none : bmapRead f w'.stream block = none := by
        refine bmapRead_none ?_ ?_
        · rw [directData, direct, runData_append, length_append]
          omega
        · -- the range lies behind the block, so its offset is negative, taken in 32 bits
          have held := tableData_length formed.fits formed.super
          rw [tableData, tables, tableOffset]
          rw [tableData] at held
          omega
      rw [none] at read
      cases read
    have here := (fitRead fit).2
    rw [read, Option.some.injEq] at here
    exact ⟨by omega, fit⟩
  · rintro ⟨rfl, fit⟩ nb' w₁ done'
    rw [done] at done'
    cases done'
    obtain ⟨used, read⟩ := fitRead fit
    exact ⟨read, fun c b mapped => keeps_of_longer formed few used tabled
      (grew.longer begins (begins.kept formed fit)) mapped⟩

/-- A first run that counts fewer blocks than it did gives a file block to the run behind it. -/
theorem Grew.moves {tables : List (List Run)}
    (grew : Grew f w.stream.direct.dropLast touches tables st) (begins : Begins f w touches)
    (all : st.direct.length = numDirectBlocks) (used : Used st.direct) (shrunk : ¬ Kept touches) :
    ∃ c b b', bmapRead f w.stream c = some b ∧ (st.directData f.agShift)[c]? = some b' ∧
      b ≠ b' := by
  obtain ⟨_, runs, direct, stored⟩ := grew
  have some : ∀ q ∈ touches, q.after % 2 ^ 16 ≠ 0 := by
    intro q member zero
    obtain ⟨r, inRuns, empty⟩ := stored_empty stored ⟨q, member, zero⟩
    have inUse := used r (by rw [direct]; exact mem_append_right _ inRuns)
    rw [empty] at inUse
    cases inUse
  have new : ∀ {rest : List Touch}, Fresh f w.space rest → (∀ q ∈ rest, q.after % 2 ^ 16 ≠ 0) →
      Kept rest := by
    intro rest fresh some q member
    have nonzero := some q member
    rw [(fresh q member).1]
    omega
  unfold Begins at begins
  split at begins
  · exact absurd (new begins some) shrunk
  rename_i r last
  obtain ⟨after, rest, rfl, _, fresh⟩ := begins
  obtain ⟨first, others⟩ := forall_mem_cons.mp some
  have less : after % 2 ^ 16 < r.len.toNat := by
    by_contra enough
    refine shrunk (forall_mem_cons.mpr ⟨?_, new fresh others⟩)
    have nonzero : after % 2 ^ 16 ≠ 0 := first
    show max r.len.toNat 1 ≤ after % 2 ^ 16
    omega
  obtain ⟨r₁, runs₁, here, stored₁, rfl⟩ := forall₂_cons_right_iff.mp stored
  have count : w.stream.direct.dropLast.length + (runs₁.length + 1) = numDirectBlocks := by
    rw [← all, direct, length_append, length_cons]
  rw [length_dropLast] at count
  -- there is a new run behind it: the old ones do not fill the twelve slots
  cases stored₁ with
  | nil =>
    have twelve : numDirectBlocks = 12 := rfl
    rw [length_nil] at count
    omega
  | @cons r₂ q₂ runs₂ rest there stored₂ =>
    have whole := (dropLast_append_getLast? r last).symm
    have old : (w.stream.directData f.agShift)[
        (runData f.agShift w.stream.direct.dropLast).length + after % 2 ^ 16]? =
          Option.some (r.base f.agShift + after % 2 ^ 16) := by
      rw [directData]
      nth_rewrite 1 [whole]
      rw [runData_append, List.getElem?_append_right (Nat.le_add_right _ _),
        Nat.add_sub_cancel_left, runData_cons, runData_nil, append_nil,
        blocks_getElem? r less]
    have now : (st.directData f.agShift)[
        (runData f.agShift w.stream.direct.dropLast).length + after % 2 ^ 16]? =
          Option.some q₂.base := by
      have length : (r₁.blocks f.agShift).length = after % 2 ^ 16 := by rw [blocks_length, here.2.1]
      have positive : 0 < r₂.len.toNat := by
        rw [there.2.1]
        exact Nat.pos_of_ne_zero (others q₂ mem_cons_self)
      rw [directData, direct, runData_append,
        List.getElem?_append_right (Nat.le_add_right _ _), Nat.add_sub_cancel_left,
        runData_cons, List.getElem?_append_right (Nat.le_of_eq length), length, Nat.sub_self,
        runData_cons, List.getElem?_append_left (by rw [blocks_length]; exact positive),
        blocks_getElem? r₂ positive, there.1]
      rfl
    refine ⟨_, _, _, read_direct formed old, now, fun same => ?_⟩
    have marked := formed.fits.marked _ (mem_blocks_of_direct (mem_of_getElem? old))
    rw [same, (fresh q₂ mem_cons_self).2.2] at marked
    cases marked

/-- It is in the tables: what matters of the runs left behind is that each still counts some
blocks, and the first what it counted. -/
theorem table_agrees {v : Work} (landed : Landed f block w.stream.direct.dropLast
      (runData f.agShift w.stream.direct.dropLast).length w.stream.tables ⟨touches, .table v⟩
      (bmapWrite f w block)) (begins : Begins f w touches) :
    Agrees f w block ↔ FillsRoom f v block ∧
      ∀ nb w', indirectBmap f block 2 v = (.ok nb, w') → Kept touches := by
  obtain ⟨result, grew, position, all, super⟩ := landed
  have tables := grew.1
  have tabled : Tabled f v.stream := ⟨tables ▸ formed.tabled.tables, tables ▸ formed.tabled.dense⟩
  have beyond : (v.stream.directData f.agShift).length ≤ block := by
    obtain ⟨_, runs, direct, stored⟩ := grew
    have most := length_le stored
    rw [directData, direct, runData_append, length_append]
    omega
  constructor
  · intro agrees
    have room : FillsRoom f v block := by
      by_contra full
      obtain ⟨nb, w', done, lost⟩ := tables_lost tabled beyond full
      have read := (agrees nb w' (result.trans done)).1
      rw [lost] at read
      cases read
    refine ⟨room, fun nb w' done => ?_⟩
    obtain ⟨read, keeps⟩ := agrees nb w' (result.trans done)
    obtain ⟨tabled', direct', _, _⟩ := indirectBmap_tables tabled super room done
    -- the lookup went through all twelve runs to the tables
    have used : Used v.stream.direct := by
      rw [bmapRead] at read
      cases walked : walkDirect f w'.stream block with
      | hit disk =>
        have within := lt_of_walk_hit walked
        rw [Nat.zero_add, direct'] at within
        exact absurd within (Nat.not_lt.mpr beyond)
      | slot k covered =>
        rw [walked] at read
        cases read
      | full covered =>
        have used := used_of_walk_full walked
        rwa [direct'] at used
    by_contra shrunk
    obtain ⟨c, b, b', mapped, moved, differ⟩ := grew.moves formed few begins all used shrunk
    have still := keeps c b mapped
    have data : w'.stream.directData f.agShift = v.stream.directData f.agShift := by
      rw [directData, direct', directData]
    rw [bmapRead_data (direct'.symm ▸ used) tabled', data,
      if_pos (List.getElem?_eq_some_iff.mp moved).1, moved, Option.some.injEq] at still
    exact differ still.symm
  · rintro ⟨room, kept⟩ nb w' done
    have kept := kept nb w' (result.symm.trans done)
    have used := grew.used formed fun q member zero => by
        have some := kept q member
        omega
    obtain ⟨read, _, _, keeps⟩ :=
      tables_read used all tabled super beyond room (result.symm.trans done)
    exact ⟨read, fun c b mapped => keeps c b (keeps_of_longer formed few used tabled
      (grew.longer begins kept) mapped)⟩

end

/-- **Lookups agree with the blocks that writes were given exactly when the block is not inside
an appended window and the runs' lengths hold it.** -/
theorem read_back {offset : Nat} (formed : Formed f others w) (size : 10 ≤ f.bits)
    (small : offset < 2 ^ 32) :
    Agrees f w (offset / f.blockSize) ↔ ReadsBack f w (offset / f.blockSize) := by
  have near : offset / f.blockSize < 2 ^ 22 := by
    rw [Nat.div_lt_iff_lt_mul (show 0 < f.blockSize from Nat.two_pow_pos _)]
    calc offset < 2 ^ 22 * 2 ^ 10 := small
      _ ≤ 2 ^ 22 * f.blockSize := Nat.mul_le_mul_left _ (Nat.pow_le_pow_right (by decide) size)
  generalize offset / f.blockSize = block at near ⊢
  cases found : (w.stream.directData f.agShift)[block]? with
  | some disk =>
    have walked := walkDirect_hit formed.used found
    have written : bmapWrite f w block = (.ok disk, w) := by rw [bmapWrite, walked]
    rw [ReadsBack, walked]
    refine iff_of_true (fun nb w' done => ?_) trivial
    rw [written] at done
    cases done
    exact ⟨by rw [bmapRead, walked], fun c b mapped => mapped⟩
  | none =>
    have beyond := List.getElem?_eq_none_iff.mp found
    have walked := walkDirect_past formed.used beyond
    by_cases few : w.stream.direct.length < numDirectBlocks
    · rw [if_pos few] at walked
      obtain ⟨landed, begins⟩ := planOf_landed formed few beyond
      have written : bmapWrite f w block = growDirect f block
          (block + 1 - (w.stream.directData f.agShift).length) w w.stream.direct.length
          (lastLength w.stream w.stream.direct.length)
          (w.stream.directData f.agShift).length := by
        rw [bmapWrite, walked]
        rfl
      rw [← written] at landed
      rw [ReadsBack, walked]
      show _ ↔ Lands f block (planOf f w block w.stream.direct.length
        (w.stream.directData f.agShift).length)
      generalize planOf f w block w.stream.direct.length
        (w.stream.directData f.agShift).length = p at landed begins ⊢
      obtain ⟨touches, landing⟩ := p
      cases landing with
      | run inside => exact run_agrees formed few near landed begins
      | table v => exact table_agrees formed few landed begins
      | failed =>
        obtain ⟨e, w₁, failed⟩ := landed
        refine iff_of_true (fun nb w' done => ?_) trivial
        rw [failed] at done
        cases done
    · rw [if_neg few] at walked
      have written : bmapWrite f w block = indirectBmap f block 2 w := by rw [bmapWrite, walked]
      have all := Nat.le_antisymm formed.few (Nat.le_of_not_lt few)
      rw [ReadsBack, walked]
      constructor
      · intro agrees
        by_contra full
        obtain ⟨nb, w', done, lost⟩ := tables_lost formed.tabled beyond full
        have read := (agrees nb w' (written.trans done)).1
        rw [lost] at read
        cases read
      · intro room nb w' done
        obtain ⟨read, _, _, keeps⟩ := tables_read formed.used all formed.tabled
          (formed.fits.kept 0 formed.super) beyond room (written.symm.trans done)
        exact ⟨read, keeps⟩

end Call

/-! ## Poles -/

open Ownership (threeGroups blankVol)

/-- A new file on a volume of three groups. -/
def newStream : Work := ⟨blankVol.space, .empty⟩

theorem newStream_formed : Formed threeGroups (· = 0) newStream where
  used r member := by cases member
  few := by decide
  tabled := ⟨nofun, trivial⟩
  fits := by
    refine ⟨⟨fun r member => trivial, trivial, trivial, nofun⟩,
      nodup_nil, fun b member => ?_, fun b member => ?_, fun b member => ?_, ?_⟩
    · cases member
    · cases member
    · cases member
    · rintro b rfl
      decide
  super := rfl

/-- A file of three blocks, behind which there is room. -/
def threeBlocks : Work where
  space := { blankVol.space with bitmap := fun off => off < 8 }
  stream := { Stream.empty with direct := [Run.make 3 5 3], maxDirectRange := 3 }

theorem threeBlocks_formed : Formed threeGroups (· = 0) threeBlocks where
  used := by decide
  few := by decide
  tabled := ⟨nofun, trivial⟩
  fits := ⟨⟨fun _ _ => trivial, trivial, trivial, nofun⟩, by decide, by decide, by decide,
    by decide, fun b zero => zero ▸ rfl⟩
  super := rfl

/-- The fourth block extends the run, and the three before it stay. -/
theorem read_back_fourth : Agrees threeGroups threeBlocks (3500 / threeGroups.blockSize) :=
  (read_back threeBlocks_formed (by decide) (by decide)).mpr
    ⟨rfl, show ∀ q ∈ [Touch.mk 5 3 4], q.after < 2 ^ 16 by decide⟩

/-- The lookup of the block just mapped gives another one. -/
def strayTest (offset : Nat) : Bool :=
  match bmapWrite threeGroups newStream (offset / threeGroups.blockSize) with
  | (.ok nb, w) => bmapRead threeGroups w.stream (offset / threeGroups.blockSize) != some nb
  | _ => false

theorem strayTest_sound {offset : Nat} (stray : strayTest offset = true) :
    ¬ Agrees threeGroups newStream (offset / threeGroups.blockSize) := by
  intro agrees
  unfold strayTest at stray
  split at stray
  · rename_i nb w done
    rw [(agrees nb w done).1] at stray
    simp at stray
  · cases stray

/-- **A write behind the mapped range is given another file block's disk block**: the file is
empty, and the block asked for is its second. -/
theorem second_block_stray :
    Formed threeGroups (· = 0) newStream ∧
      ¬ Agrees threeGroups newStream (1024 / threeGroups.blockSize) :=
  ⟨newStream_formed, strayTest_sound (by decide +kernel)⟩

end Argentum.Agfs.ReadBack
