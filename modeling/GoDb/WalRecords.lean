import GoDb.WalLog

/-! Replaying any bytes. A turn of the replay loop is written here with the slices of the
source, which panic out of range, and over any function for the checksum. What the turns
read is the longest sequence of records the bytes start with. -/
namespace GoDb.Wal
open Foundation Outcome TransactionLog

def slice (bytes : Bytes) (low high : Nat) : Except Error Bytes :=
  if low ≤ high ∧ high ≤ bytes.length then .ok ((bytes.drop low).take (high - low)) else .error .panics

def index (bytes : Bytes) (i : Nat) : Except Error UInt8 :=
  match bytes[i]? with
  | none => .error .panics
  | some byte => .ok byte

/-- What the loop does with the body of a record, by its operation. -/
def readBody (op : UInt8) (keyLen : Nat) (body rest : Bytes) : Except Error (Option (Entry Nat BatchOp × Bytes)) :=
  if op = walTxPut ∨ op = walTxDelete then do
    let whole ← slice body 0 keyLen
    if whole.length < 8 then .error .walTransactionKey
    else do
      let id ← slice body 0 8
      let key ← slice body 8 keyLen
      let value ← slice body keyLen body.length
      .ok (some (.member (LittleEndian.read id) ⟨key,value,op = walTxDelete⟩,rest))
  else if op = walTxCommit then do
    let whole ← slice body 0 keyLen
    if whole.length ≠ 8 then .error .walCommit
    else do
      let id ← slice body 0 8
      .ok (some (.commit (LittleEndian.read id),rest))
  else do
    let key ← slice body 0 keyLen
    let value ← slice body keyLen body.length
    .ok (some (.plain ⟨key,value,op = walDelete⟩,rest))

/-- One turn of the loop: the entry that is read and the bytes left, or `none` at an incomplete header. -/
def turnUsing (crc : Bytes → UInt32) (bytes : Bytes) : Except Error (Option (Entry Nat BatchOp × Bytes)) :=
  if bytes.length < walHeader then .ok none
  else do
    let h := bytes.take walHeader
    let remaining := bytes.drop walHeader
    let magic ← slice h 0 8
    if magic ≠ walMagic then .error .walMagic
    else do
      let keyLen ← (slice h 9 13).map LittleEndian.read
      let valLen ← (slice h 13 17).map LittleEndian.read
      if remaining.length < keyLen + valLen then .error .walLength
      else do
        let body := remaining.take (keyLen + valLen)
        let op ← index h 8
        let sum ← (slice h 17 21).map LittleEndian.read
        if (crc (op::body)).toNat ≠ sum then .error .walChecksum
        else if known op = false then .error (.walOperation op)
        else readBody op keyLen body (remaining.drop (keyLen + valLen))

def turn : Bytes → Except Error (Option (Entry Nat BatchOp × Bytes)) := turnUsing checksumIEEE

variable {bytes left rest : Bytes} {keyLen : Nat} {e : Entry Nat BatchOp} {f : Frame}

theorem slice_ok {low high : Nat} (order : low ≤ high) (inside : high ≤ bytes.length) :
    slice bytes low high = .ok ((bytes.drop low).take (high - low)) := if_pos ⟨order,inside⟩

theorem readBody_eq (op : UInt8) {body : Bytes} (inside : keyLen ≤ body.length) (rest : Bytes) :
    readBody op keyLen body rest = (Frame.mk op (body.take keyLen) (body.drop keyLen)).settle rest := by
  have whole : slice body 0 keyLen = .ok (body.take keyLen) := slice_ok (Nat.zero_le _) inside
  have value : slice body keyLen body.length = .ok (body.drop keyLen) := by
    rw [slice_ok inside (Nat.le_refl _),List.take_of_length_le (by rw [List.length_drop])]
  have length : (body.take keyLen).length = keyLen := List.length_take_of_le inside
  unfold readBody Frame.settle Frame.entry
  simp only [whole,value,length,bind,Except.bind]
  by_cases member : op = walTxPut ∨ op = walTxDelete
  · rw [if_pos member]
    by_cases few : keyLen < 8
    · rw [if_pos few,if_pos ⟨member,few⟩]
    · have number : slice body 0 8 = .ok ((body.take keyLen).take 8) := by
        rw [slice_ok (Nat.zero_le 8) (by omega),List.take_take,Nat.min_eq_left (by omega)]
        rfl
      have key : slice body 8 keyLen = .ok ((body.take keyLen).drop 8) := by
        rw [slice_ok (by omega) inside,List.drop_take]
      have other : ¬(op = walTxCommit ∧ keyLen ≠ 8) := by
        rintro ⟨rfl,-⟩
        exact absurd member (by decide)
      rw [if_neg few,if_neg (fun both => few both.2),if_neg other,if_pos member]
      simp only [number,key]
  · have noMember : ¬((op = walTxPut ∨ op = walTxDelete) ∧ keyLen < 8) := fun both => member both.1
    rw [if_neg member,if_neg noMember,if_neg member]
    by_cases commit : op = walTxCommit
    · rw [if_pos commit,if_pos commit]
      by_cases long : keyLen ≠ 8
      · rw [if_pos long,if_pos ⟨commit,long⟩]
      · have number : slice body 0 8 = .ok ((body.take keyLen).take 8) := by
          rw [slice_ok (Nat.zero_le 8) (by omega),List.take_take,Nat.min_eq_left (by omega)]
          rfl
        have noError : ¬(op = walTxCommit ∧ keyLen ≠ 8) := fun both => long both.2
        rw [if_neg long,if_neg noError]
        simp only [number]
    · have noCommit : ¬(op = walTxCommit ∧ keyLen ≠ 8) := fun both => commit both.1
      rw [if_neg commit,if_neg noCommit,if_neg commit]

/-- The record that lengths make of the bytes behind a header. -/
def Frame.cut (op : UInt8) (body : Bytes) (keyLen valLen : Nat) : Frame :=
  ⟨op,(body.take (keyLen + valLen)).take keyLen,(body.take (keyLen + valLen)).drop keyLen⟩

theorem Frame.length_cut (op : UInt8) {body : Bytes} {valLen : Nat} (room : keyLen + valLen ≤ body.length) :
    (cut op body keyLen valLen).key.length = keyLen ∧ (cut op body keyLen valLen).value.length = valLen := by
  have whole : (body.take (keyLen + valLen)).length = keyLen + valLen := List.length_take_of_le room
  constructor
  · exact List.length_take_of_le (by omega)
  · exact List.length_drop.trans (by omega)

section turn

variable {crc : Bytes → UInt32}

theorem turn_short (short : bytes.length < walHeader) : turnUsing crc bytes = .ok none := if_pos short

theorem turn_magic (long : walHeader ≤ bytes.length) (other : bytes.take 8 ≠ walMagic) :
    turnUsing crc bytes = .error .walMagic := by
  have length : (bytes.take walHeader).length = walHeader := List.length_take_of_le long
  have magic : slice (bytes.take walHeader) 0 8 = .ok (bytes.take 8) := by
    rw [slice_ok (Nat.zero_le 8) (by rw [length]; decide),List.drop_zero,Nat.sub_zero,List.take_take]
    rfl
  rw [turnUsing,if_neg (Nat.not_lt.mpr long)]
  simp only [magic,bind,Except.bind]
  rw [if_pos other]

theorem turn_headed (op : UInt8) {valLen sum : Nat} (lengths : keyLen < 2^32 ∧ valLen < 2^32) (small : sum < 2^32)
    (body : Bytes) :
    turnUsing crc (headed op keyLen valLen sum ++ body) =
      if body.length < keyLen + valLen then .error .walLength
      else if (crc (op::body.take (keyLen + valLen))).toNat ≠ sum then .error .walChecksum
      else if known op = false then .error (.walOperation op)
      else (Frame.cut op body keyLen valLen).settle (body.drop (keyLen + valLen)) := by
  have length : (headed op keyLen valLen sum).length = 21 := length_headed ..
  have h : (headed op keyLen valLen sum ++ body).take walHeader = headed op keyLen valLen sum := List.take_left' length
  have behind : (headed op keyLen valLen sum ++ body).drop walHeader = body := List.drop_left' length
  obtain ⟨magic,first,keyField,valField,sumField⟩ := headed_fields op lengths small []
  rw [List.append_nil] at magic first keyField valField sumField
  have magicSlice : slice (headed op keyLen valLen sum) 0 8 = .ok walMagic := by
    rw [slice_ok (Nat.zero_le 8) (by omega),List.drop_zero,Nat.sub_zero,magic]
  have keySlice : (slice (headed op keyLen valLen sum) 9 13).map LittleEndian.read = .ok keyLen := by
    rw [slice_ok (by decide) (by omega)]
    exact congrArg Except.ok keyField
  have valSlice : (slice (headed op keyLen valLen sum) 13 17).map LittleEndian.read = .ok valLen := by
    rw [slice_ok (by decide) (by omega)]
    exact congrArg Except.ok valField
  have sumSlice : (slice (headed op keyLen valLen sum) 17 21).map LittleEndian.read = .ok sum := by
    rw [slice_ok (by decide) (by omega)]
    exact congrArg Except.ok sumField
  have opByte : index (headed op keyLen valLen sum) 8 = .ok op := by
    have here : (headed op keyLen valLen sum)[8]? = some op := by
      rw [headed,List.getElem?_append_right (by decide)]
      rfl
    rw [index,here]
  rw [turnUsing,if_neg (by simp)]
  simp only [h,behind,magicSlice,keySlice,valSlice,sumSlice,opByte,bind,Except.bind]
  rw [if_neg (not_not.mpr rfl)]
  by_cases short : body.length < keyLen + valLen
  · rw [if_pos short,if_pos short]
  · rw [if_neg short,if_neg short,readBody_eq]
    · rfl
    · rw [List.length_take]
      omega

theorem turn_headed_some (op : UInt8) {valLen sum : Nat} (lengths : keyLen < 2^32 ∧ valLen < 2^32)
    (small : sum < 2^32) {body : Bytes} :
    turnUsing crc (headed op keyLen valLen sum ++ body) = .ok (some (e,left)) ↔
      (keyLen + valLen ≤ body.length ∧ (crc (op::body.take (keyLen + valLen))).toNat = sum ∧ known op = true) ∧
        (Frame.cut op body keyLen valLen).settle (body.drop (keyLen + valLen)) = .ok (some (e,left)) := by
  rw [turn_headed op lengths small]
  by_cases short : body.length < keyLen + valLen
  · simp [short]
  by_cases wrong : (crc (op::body.take (keyLen + valLen))).toNat ≠ sum
  · simp [short,wrong]
  by_cases unknown : known op = false
  · simp [short,wrong,unknown]
  · rw [if_neg short,if_neg wrong,if_neg unknown,and_iff_right]
    exact ⟨Nat.not_lt.mp short,not_not.mp wrong,(Bool.not_eq_false (known op)).mp unknown⟩

private theorem field (bytes : Bytes) (long : 4 ≤ bytes.length) :
    ∃ n rest, n < 2^32 ∧ bytes = LittleEndian.put 4 n ++ rest ∧ rest.length = bytes.length - 4 := by
  have length : (bytes.take 4).length = 4 := List.length_take_of_le long
  have bound := LittleEndian.read_lt (bytes.take 4)
  have same := LittleEndian.put_read (bytes.take 4)
  rw [length] at bound same
  exact ⟨_,bytes.drop 4,bound,by rw [same,List.take_append_drop],List.length_drop⟩

theorem headed_of_magic (long : walHeader ≤ bytes.length) (magic : bytes.take 8 = walMagic) :
    ∃ op keyLen valLen sum body, (keyLen < 2^32 ∧ valLen < 2^32) ∧ sum < 2^32 ∧
      bytes = headed op keyLen valLen sum ++ body := by
  have split : bytes = walMagic ++ bytes.drop 8 := by rw [← magic,List.take_append_drop]
  have length : (bytes.drop 8).length = bytes.length - 8 := List.length_drop
  unfold walHeader at long
  cases fields : bytes.drop 8 with
  | nil =>
    rw [fields,List.length_nil] at length
    omega
  | cons op fields' =>
    rw [fields,List.length_cons] at length
    obtain ⟨keyLen,first,keyBound,rfl,left⟩ := field fields' (by omega)
    obtain ⟨valLen,second,valBound,rfl,left'⟩ := field first (by omega)
    obtain ⟨sum,body,sumBound,rfl,-⟩ := field second (by omega)
    refine ⟨op,keyLen,valLen,sum,body,⟨keyBound,valBound⟩,sumBound,?_⟩
    rw [split,fields,headed]
    simp only [List.append_assoc,List.cons_append]

theorem turn_cases (bytes : Bytes) :
    bytes.length < walHeader ∨ walHeader ≤ bytes.length ∧ bytes.take 8 ≠ walMagic ∨
      ∃ op keyLen valLen sum body, (keyLen < 2^32 ∧ valLen < 2^32) ∧ sum < 2^32 ∧
        bytes = headed op keyLen valLen sum ++ body := by
  by_cases short : bytes.length < walHeader
  · exact .inl short
  · by_cases magic : bytes.take 8 = walMagic
    · exact .inr (.inr (headed_of_magic (Nat.not_lt.mp short) magic))
    · exact .inr (.inl ⟨Nat.not_lt.mp short,magic⟩)

theorem Frame.settle_error {e : Error} (failed : f.settle rest = .error e) : e ≠ .panics ∧ e ≠ .diverges := by
  unfold settle at failed
  split at failed
  · cases failed
    decide
  · split at failed
    · cases failed
      decide
    · cases failed

theorem turn_error {e : Error} (failed : turnUsing crc bytes = .error e) : e ≠ .panics ∧ e ≠ .diverges := by
  rcases turn_cases bytes with short | ⟨long,other⟩ | ⟨op,keyLen,valLen,sum,body,lengths,small,rfl⟩
  · rw [turn_short short] at failed
    cases failed
  · rw [turn_magic long other] at failed
    cases failed
    decide
  · rw [turn_headed op lengths small] at failed
    split at failed
    · cases failed
      decide
    · split at failed
      · cases failed
        decide
      · split at failed
        · cases failed
          exact ⟨Error.noConfusion,Error.noConfusion⟩
        · exact Frame.settle_error failed

end turn

theorem Frame.settle_some (taken : f.settle rest = .ok (some (e,left))) :
    (f.op = walTxPut ∨ f.op = walTxDelete → 8 ≤ f.key.length) ∧ (f.op = walTxCommit → f.key.length = 8) ∧
      e = f.entry ∧ left = rest := by
  unfold settle at taken
  by_cases member : (f.op = walTxPut ∨ f.op = walTxDelete) ∧ f.key.length < 8
  · rw [if_pos member] at taken
    cases taken
  rw [if_neg member] at taken
  by_cases commit : f.op = walTxCommit ∧ f.key.length ≠ 8
  · rw [if_pos commit] at taken
    cases taken
  rw [if_neg commit] at taken
  cases taken
  exact ⟨fun kind => Nat.not_lt.mp fun few => member ⟨kind,few⟩,fun kind => not_not.mp fun other => commit ⟨kind,other⟩,
    rfl,rfl⟩

theorem bytes_eq_headed (f : Frame) :
    f.bytes = headed f.op f.key.length f.value.length (checksumIEEE (f.op::(f.key ++ f.value))).toNat ++
      (f.key ++ f.value) := record_eq ..

theorem turn_frame (valid : f.Valid) (rest : Bytes) : turn (f.bytes ++ rest) = .ok (some (f.entry,rest)) := by
  have length : (f.key ++ f.value).length = f.key.length + f.value.length := List.length_append
  rw [turn,bytes_eq_headed,List.append_assoc,turn_headed_some f.op valid.short (UInt32.toNat_lt _),
    List.take_left' length,List.drop_left' length,Frame.cut,List.take_left' length,List.take_left,List.drop_left]
  exact ⟨⟨by simp,rfl,valid.known⟩,Frame.settle_ok valid.member valid.commit rest⟩

theorem turn_some_iff (bytes rest : Bytes) (e : Entry Nat BatchOp) :
    turn bytes = .ok (some (e,rest)) ↔ ∃ f : Frame, f.Valid ∧ e = f.entry ∧ bytes = f.bytes ++ rest := by
  constructor
  · intro taken
    unfold turn at taken
    rcases turn_cases bytes with short | ⟨long,other⟩ | ⟨op,keyLen,valLen,sum,body,lengths,small,rfl⟩
    · rw [turn_short short] at taken
      cases taken
    · rw [turn_magic long other] at taken
      cases taken
    · obtain ⟨⟨room,right,valid⟩,taken⟩ := (turn_headed_some op lengths small).mp taken
      obtain ⟨member,commit,rfl,rfl⟩ := Frame.settle_some taken
      obtain ⟨keyLength,valLength⟩ := Frame.length_cut op room
      have small : Short (Frame.cut op body keyLen valLen).key (Frame.cut op body keyLen valLen).value := by
        unfold Short
        rwa [keyLength,valLength]
      refine ⟨Frame.cut op body keyLen valLen,⟨valid,small,member,commit⟩,rfl,?_⟩
      rw [bytes_eq_headed,keyLength,valLength]
      simp only [Frame.cut]
      rw [List.take_append_drop,right,List.append_assoc,List.take_append_drop]
  · rintro ⟨f,valid,rfl,rfl⟩
    exact turn_frame valid rest

section replay

variable {σ : Type} {apply : UInt8 → Bytes → Bytes → Proc Error σ Unit}

theorem replayFrom_turn (fuel : Nat) (bytes : Bytes) (pending : Nat → List BatchOp) :
    replayFrom apply (fuel + 1) bytes pending = proceed apply fuel pending (turn bytes) := by
  unfold turn
  rcases turn_cases bytes with short | ⟨long,other⟩ | ⟨op,keyLen,valLen,sum,body,lengths,small,rfl⟩
  · rw [turn_short short,replayFrom,next,if_pos short]
    rfl
  · rw [turn_magic long other,replayFrom,next,if_neg (Nat.not_lt.mpr long),if_pos other]
    rfl
  · have found := next_headed op lengths small body
    rw [turn_headed op lengths small]
    by_cases short : body.length < keyLen + valLen
    · rw [if_pos short] at found ⊢
      rw [replayFrom,found]
      rfl
    rw [if_neg short] at found ⊢
    by_cases wrong : (checksumIEEE (op::body.take (keyLen + valLen))).toNat ≠ sum
    · rw [if_pos wrong] at found ⊢
      rw [replayFrom,found]
      rfl
    rw [if_neg wrong] at found ⊢
    by_cases unknown : known op = false
    · rw [if_pos unknown] at found ⊢
      rw [replayFrom,found]
      rfl
    rw [if_neg unknown] at found ⊢
    have valid : known op = true := (Bool.not_eq_false (known op)).mp unknown
    exact replayFrom_record (f := Frame.cut op body keyLen valLen) found valid fuel pending

end replay

structure Starts (bytes : Bytes) (frames : List Frame) : Prop where
  valid : ∀ f ∈ frames, f.Valid
  inside : frames.flatMap Frame.bytes <+: bytes

/-- No record that the replay takes starts the bytes. -/
def Ended (bytes : Bytes) : Prop := ∀ (f : Frame) (rest : Bytes), f.Valid → bytes ≠ f.bytes ++ rest

theorem exists_frames (bytes : Bytes) :
    ∃ (frames : List Frame) (rest : Bytes), (∀ f ∈ frames, f.Valid) ∧ bytes = frames.flatMap Frame.bytes ++ rest ∧
      Ended rest := by
  induction size : bytes.length using Nat.strong_induction_on generalizing bytes with
  | _ size ih =>
    by_cases ended : Ended bytes
    · exact ⟨[],bytes,List.forall_mem_nil _,rfl,ended⟩
    · unfold Ended at ended
      push Not at ended
      obtain ⟨f,after,valid,rfl⟩ := ended
      have positive : 0 < f.bytes.length := Nat.lt_of_lt_of_le (by decide) f.length_bytes
      obtain ⟨frames,rest,others,rfl,ended⟩ := ih after.length (by rw [← size,List.length_append]; omega) after rfl
      refine ⟨f::frames,rest,List.forall_mem_cons.mpr ⟨valid,others⟩,?_,ended⟩
      rw [List.flatMap_cons,List.append_assoc]

theorem Frame.bytes_inj {g : Frame} (first : f.Valid) (second : g.Valid) (same : f.bytes ++ rest = g.bytes ++ left) :
    f = g ∧ rest = left := by
  have read := next_record f.op rest first.known first.short
  rw [← Frame.bytes,same,Frame.bytes,next_record g.op left second.known second.short] at read
  obtain ⟨op,key,value,left⟩ := Next.record.inj read
  exact ⟨Frame.ext op.symm key.symm value.symm,left.symm⟩

theorem Starts.is_start {frames other : List Frame} (valid : ∀ f ∈ frames, f.Valid) (ended : Ended rest)
    (starts : Starts (frames.flatMap Frame.bytes ++ rest) other) : other <+: frames := by
  induction other generalizing frames with
  | nil => exact List.nil_prefix
  | cons f other ih =>
    obtain ⟨first,others⟩ := List.forall_mem_cons.mp starts.valid
    obtain ⟨left,same⟩ := starts.inside
    rw [List.flatMap_cons,List.append_assoc] at same
    cases frames with
    | nil => exact absurd same.symm (ended f _ first)
    | cons g frames =>
      obtain ⟨front,behind⟩ := List.forall_mem_cons.mp valid
      rw [List.flatMap_cons,List.append_assoc] at same
      obtain ⟨rfl,behind'⟩ := Frame.bytes_inj first front same
      exact (List.prefix_cons_inj f).mpr (ih behind ⟨others,left,behind'⟩)

theorem length_frames_le (frames : List Frame) : frames.length ≤ (frames.flatMap Frame.bytes).length := by
  induction frames with
  | nil => exact Nat.le_refl _
  | cons f frames ih =>
    have first : 1 ≤ f.bytes.length := Nat.le_trans (by decide) f.length_bytes
    rw [List.flatMap_cons,List.length_append,List.length_cons]
    omega

theorem replayFrom_ended (ended : Ended rest) :
    ∃ ending : Except Error Unit, ending ≠ .error .diverges ∧ ∀ (σ : Type)
      (apply : UInt8 → Bytes → Bytes → Proc Error σ Unit) (fuel : Nat) (pending : Nat → List BatchOp),
        replayFrom apply (fuel + 1) rest pending = Proc.of ending := by
  cases result : turn rest with
  | error e =>
    refine ⟨.error e,fun same => (turn_error result).2 (Except.error.inj same),fun σ apply fuel pending => ?_⟩
    rw [replayFrom_turn,result]
    rfl
  | ok read =>
    cases read with
    | none =>
      refine ⟨.ok (),by simp,fun σ apply fuel pending => ?_⟩
      rw [replayFrom_turn,result]
      rfl
    | some found =>
      obtain ⟨f,valid,-,split⟩ := (turn_some_iff rest found.2 found.1).mp result
      exact absurd split (ended f found.2 valid)

theorem replay_frames (bytes : Bytes) :
    ∃ (frames : List Frame) (rest : Bytes) (ending : Except Error Unit), (∀ f ∈ frames, f.Valid) ∧
      bytes = frames.flatMap Frame.bytes ++ rest ∧ Ended rest ∧ ending ≠ .error .diverges ∧
      ∀ (σ : Type) (apply : UInt8 → Bytes → Bytes → Proc Error σ Unit),
        replay apply bytes = (applyAll apply (counted (frames.map Frame.entry)) >>= fun _ => Proc.of ending) := by
  obtain ⟨frames,rest,valid,rfl,ended⟩ := exists_frames bytes
  obtain ⟨ending,ends,behind⟩ := replayFrom_ended ended
  refine ⟨frames,rest,ending,valid,rfl,ended,ends,fun σ apply => ?_⟩
  have turns := length_frames_le frames
  obtain ⟨fuel,total⟩ : ∃ fuel, (frames.flatMap Frame.bytes ++ rest).length + 1 = fuel + 1 + frames.length :=
    ⟨(frames.flatMap Frame.bytes ++ rest).length - frames.length,by rw [List.length_append]; omega⟩
  rw [replay,total,replayFrom_frames valid,applied_eq_counted]
  simp only [behind]

theorem replay_noting {frames : List Frame} {ending : Except Error Unit}
    (replayed : replay noting bytes = (applyAll noting (counted (frames.map Frame.entry)) >>= fun _ => Proc.of ending)) :
    (replay noting bytes).exec [] = (ending,(counted (frames.map Frame.entry)).map asCall) := by
  rw [replayed,exec_bind_ok (applyAll_noting _ _),exec_of,List.nil_append]

/-- Any bytes are replayed to the end of the longest sequence of records they start with, and there the replay ends or
fails. No turn slices out of range, and more bytes only add to what is applied. -/
theorem replay_any (bytes : Bytes) :
    ∃ (frames : List Frame) (ending : Except Error Unit), Starts bytes frames ∧
      (∀ other, Starts bytes other → other <+: frames) ∧ ending ≠ .error .diverges ∧
      (∀ n, turn (bytes.drop n) ≠ .error .panics) ∧
      (∀ (σ : Type) (apply : UInt8 → Bytes → Bytes → Proc Error σ Unit),
        replay apply bytes = (applyAll apply (counted (frames.map Frame.entry)) >>= fun _ => Proc.of ending)) ∧
      (replay noting bytes).exec [] = (ending,(counted (frames.map Frame.entry)).map asCall) ∧
      ∀ more, ((replay noting bytes).exec []).2 <+: ((replay noting (bytes ++ more)).exec []).2 := by
  obtain ⟨frames,rest,ending,valid,split,ended,ends,replayed⟩ := replay_frames bytes
  have noted := replay_noting (replayed _ noting)
  refine ⟨frames,ending,⟨valid,rest,split.symm⟩,?_,ends,fun n failed => (turn_error failed).1 rfl,replayed,noted,?_⟩
  · intro other starts
    rw [split] at starts
    exact starts.is_start valid ended
  · intro more
    obtain ⟨frames',rest',ending',valid',split',ended',-,replayed'⟩ := replay_frames (bytes ++ more)
    have starts : Starts (bytes ++ more) frames := ⟨valid,rest ++ more,by rw [split,List.append_assoc]⟩
    rw [split'] at starts
    obtain ⟨later,rfl⟩ := starts.is_start valid' ended'
    rw [noted,replay_noting (replayed' _ noting)]
    dsimp only
    rw [← applied_eq_counted,← applied_eq_counted,List.map_append,applied_append,List.map_append]
    exact List.prefix_append _ _

/-- A record that was written for a key and a value, with other numbers in its length fields. -/
def relabelled (crc : Bytes → UInt32) (op : UInt8) (key value : Bytes) (keyLen valLen : Nat) : Bytes :=
  headed op keyLen valLen (crc (op::(key ++ value))).toNat ++ (key ++ value)

structure Passes (crc : Bytes → UInt32) (op : UInt8) (key value rest : Bytes) (keyLen valLen : Nat) : Prop where
  room : keyLen + valLen ≤ (key ++ value ++ rest).length
  sum : crc (op::(key ++ value ++ rest).take (keyLen + valLen)) = crc (op::(key ++ value))
  known : known op = true
  member : op = walTxPut ∨ op = walTxDelete → 8 ≤ keyLen
  commit : op = walTxCommit → keyLen = 8 ∧ key.length ≠ 8

section lengths

variable {crc : Bytes → UInt32} {op : UInt8} {key value rest : Bytes} {keyLen valLen : Nat}

theorem turn_relabelled (lengths : keyLen < 2^32 ∧ valLen < 2^32) :
    turnUsing crc (relabelled crc op key value keyLen valLen ++ rest) = .ok (some (e,left)) ↔
      (keyLen + valLen ≤ (key ++ value ++ rest).length ∧
        crc (op::(key ++ value ++ rest).take (keyLen + valLen)) = crc (op::(key ++ value)) ∧ known op = true) ∧
        (Frame.cut op (key ++ value ++ rest) keyLen valLen).settle ((key ++ value ++ rest).drop (keyLen + valLen)) =
          .ok (some (e,left)) := by
  rw [relabelled,List.append_assoc,turn_headed_some op lengths (UInt32.toNat_lt _),UInt32.toNat_inj]

theorem turn_unchanged (fits : key.length + value.length < 2^32) :
    turnUsing crc (relabelled crc op key value key.length value.length ++ rest) = .ok (some (e,left)) ↔
      known op = true ∧ (Frame.mk op key value).settle rest = .ok (some (e,left)) := by
  have length : (key ++ value).length = key.length + value.length := List.length_append
  rw [turn_relabelled ⟨by omega,by omega⟩,List.take_left' length,List.drop_left' length,Frame.cut,
    List.take_left' length,List.take_left,List.drop_left]
  simp

theorem Frame.lengths_of_entry {g : Frame} (op : f.op = g.op) (other : f.op ≠ walTxCommit)
    (member : f.op = walTxPut ∨ f.op = walTxDelete → 8 ≤ f.key.length ∧ 8 ≤ g.key.length) (same : f.entry = g.entry) :
    f.key.length = g.key.length ∧ f.value.length = g.value.length := by
  unfold entry at same
  rw [← op] at same
  by_cases kind : f.op = walTxPut ∨ f.op = walTxDelete
  · rw [if_pos kind,if_pos kind] at same
    obtain ⟨-,operation⟩ := Entry.member.inj same
    obtain ⟨key,value,-⟩ := BatchOp.mk.inj operation
    have lengths := congrArg List.length key
    rw [List.length_drop,List.length_drop] at lengths
    have long := member kind
    exact ⟨by omega,congrArg List.length value⟩
  · rw [if_neg kind,if_neg other,if_neg kind,if_neg other] at same
    obtain ⟨key,value,-⟩ := BatchOp.mk.inj (Entry.plain.inj same)
    exact ⟨congrArg List.length key,congrArg List.length value⟩

theorem Frame.entry_commit (kind : f.op = walTxCommit) : f.entry = .commit (LittleEndian.read (f.key.take 8)) := by
  have other : ¬(f.op = walTxPut ∨ f.op = walTxDelete) := by
    rw [kind]
    decide
  rw [entry,if_neg other,if_pos kind]

end lengths

/-- The checksum does not cover the lengths: other lengths go unnoticed just when they are within the log, the
checksum of the bytes they give is that of the record, and the operation takes a key of this length. A commit
record stays what it is. -/
theorem lengths_bound_iff (crc : Bytes → UInt32) (op : UInt8) (key value : Bytes)
    (fits : key.length + value.length < 2^32) (keyLen valLen : Nat) (lengths : keyLen < 2^32 ∧ valLen < 2^32)
    (changed : (keyLen,valLen) ≠ (key.length,value.length)) (rest : Bytes) :
    (∀ e left, turnUsing crc (relabelled crc op key value keyLen valLen ++ rest) = .ok (some (e,left)) →
      turnUsing crc (relabelled crc op key value key.length value.length ++ rest) = .ok (some (e,rest))) ↔
      ¬Passes crc op key value rest keyLen valLen := by
  constructor
  · intro same passes
    obtain ⟨room,sum,valid,member,commit⟩ := passes
    obtain ⟨keyLength,valLength⟩ := Frame.length_cut op room
    have settled := Frame.settle_ok (f := Frame.cut op (key ++ value ++ rest) keyLen valLen)
      (fun kind => by rw [keyLength]; exact member kind) (fun kind => by rw [keyLength]; exact (commit kind).1)
    have unchanged := same _ _ ((turn_relabelled lengths).mpr ⟨⟨room,sum,valid⟩,settled _⟩)
    obtain ⟨member',commit',equal,-⟩ := Frame.settle_some ((turn_unchanged fits).mp unchanged).2
    have other : op ≠ walTxCommit := fun kind => (commit kind).2 (commit' kind)
    obtain ⟨keys,values⟩ := Frame.lengths_of_entry (f := Frame.cut op (key ++ value ++ rest) keyLen valLen)
      (g := ⟨op,key,value⟩) rfl other (fun kind => ⟨by rw [keyLength]; exact member kind,member' kind⟩) equal
    rw [keyLength] at keys
    rw [valLength] at values
    exact changed (by rw [keys,values])
  · intro caught e left taken
    obtain ⟨⟨room,sum,valid⟩,settled⟩ := (turn_relabelled lengths).mp taken
    obtain ⟨member,commit,rfl,-⟩ := Frame.settle_some settled
    obtain ⟨keyLength,-⟩ := Frame.length_cut op room
    rw [keyLength] at member commit
    -- What is left is a commit record with the key of a transaction.
    obtain ⟨kind,eight⟩ : op = walTxCommit ∧ key.length = 8 := by
      by_contra no
      exact caught ⟨room,sum,valid,member,fun kind => ⟨commit kind,fun eight => no ⟨kind,eight⟩⟩⟩
    have first : (Frame.cut op (key ++ value ++ rest) keyLen valLen).key = key := by
      have split : key ++ value ++ rest = key ++ (value ++ rest) := List.append_assoc ..
      rw [Frame.cut,commit kind,List.take_take,Nat.min_eq_left (Nat.le_add_right _ _),split,List.take_left' eight]
    have same : (Frame.cut op (key ++ value ++ rest) keyLen valLen).entry = (Frame.mk op key value).entry := by
      rw [Frame.entry_commit (f := ⟨op,key,value⟩) kind,
        Frame.entry_commit (f := Frame.cut op (key ++ value ++ rest) keyLen valLen) kind,first]
    rw [turn_unchanged fits,same]
    exact ⟨valid,Frame.settle_ok (fun _ => Nat.le_of_eq eight.symm) (fun _ => eight) rest⟩

theorem lengths_bound_shorter :
    (0,0) ≠ (([1] : Bytes).length,([2] : Bytes).length) ∧
      ∀ e left, turn (relabelled checksumIEEE walPut [1] [2] 0 0) = .ok (some (e,left)) →
        turn (relabelled checksumIEEE walPut [1] [2] 1 1) = .ok (some (e,[])) := by
  have bound := (lengths_bound_iff checksumIEEE walPut [1] [2] (by decide) 0 0 (by decide) (by decide) []).mpr
    (fun passes => absurd passes.sum (by decide +kernel))
  simp only [List.append_nil,List.length_singleton] at bound
  exact ⟨by decide,bound⟩

/-- The put of "a" with the value "b" becomes a put of "ab" with no value. -/
theorem lengths_bound_shifted :
    (∀ crc, turnUsing crc (relabelled crc walPut [97] [98] 2 0) = .ok (some (.plain ⟨[97,98],[],false⟩,[]))) ∧
      (replay noting (record walPut [97] [98])).exec [] = (.ok (),[(walPut,[97],[98])]) ∧
      (replay noting (relabelled checksumIEEE walPut [97] [98] 2 0)).exec [] = (.ok (),[(walPut,[97,98],[])]) := by
  refine ⟨fun crc => ?_,by decide +kernel,by decide +kernel⟩
  rw [← List.append_nil (relabelled crc walPut [97] [98] 2 0),turn_relabelled (by decide)]
  exact ⟨⟨by decide,rfl,rfl⟩,rfl⟩

end GoDb.Wal
