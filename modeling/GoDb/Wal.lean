import GoDb.Error
import GoDb.Foundation.LittleEndian
import GoDb.Foundation.Outcome
import Mathlib.Logic.Function.Basic

/-! The write-ahead log of `kv/wal.go`, as the bytes of its file. Writes and syncs
of the file do not fail. -/
namespace GoDb
open Foundation Outcome

def walMagic : Bytes := ascii "MYWAL01" ++ [0]
def walHeader : Nat := 8 + 1 + 4 + 4 + 4
def walPut : UInt8 := 1
def walDelete : UInt8 := 2
def walTxPut : UInt8 := 3
def walTxDelete : UInt8 := 4
def walTxCommit : UInt8 := 5

structure BatchOp where
  key : Bytes
  value : Bytes
  delete : Bool
  deriving DecidableEq, Repr

/-- One division step of the reflected polynomial. -/
def crcShift (c : UInt32) : UInt32 := if c % 2 = 1 then (c / 2) ^^^ 0xEDB88320 else c / 2

def crcByte (c : UInt32) (byte : UInt8) : UInt32 := (crcShift^[8]) (c ^^^ byte.toUInt32)

/-- `crc32.ChecksumIEEE`. -/
def checksumIEEE (data : Bytes) : UInt32 := data.foldl crcByte 0xFFFFFFFF ^^^ 0xFFFFFFFF

namespace Wal

/-- The bytes of one record: magic, op, key length, value length, checksum, key, value. -/
def record (op : UInt8) (key value : Bytes) : Bytes :=
  walMagic ++ op::(LittleEndian.put 4 key.length ++ LittleEndian.put 4 value.length ++
    LittleEndian.put 4 (checksumIEEE (op::(key ++ value))).toNat ++ key ++ value)

def append (op : UInt8) (key value : Bytes) (wal : Bytes) : Except Error Unit × Bytes :=
  if 2^32 - 1 < key.length + value.length then (.error .walRecordTooLarge,wal)
  else (.ok (),wal ++ record op key value)

def txKind (op : BatchOp) : UInt8 := if op.delete then walTxDelete else walTxPut

def appendTransaction (id : Nat) (ops : List BatchOp) (wal : Bytes) : Except Error Unit × Bytes :=
  match ops with
  | [] => append walTxCommit (LittleEndian.put 8 id) [] wal
  | op::ops =>
    match append (txKind op) (LittleEndian.put 8 id ++ op.key) op.value wal with
    | (.error e,wal) => (.error e,wal)
    | (.ok (),wal) => appendTransaction id ops wal

/-- What one turn of the replay loop finds at the head of the remaining bytes. -/
inductive Next
  | stop
  | bad (error : Error)
  | record (op : UInt8) (key value rest : Bytes)

def known (op : UInt8) : Bool :=
  op = walPut || op = walDelete || op = walTxPut || op = walTxDelete || op = walTxCommit

def next (bytes : Bytes) : Next :=
  if bytes.length < walHeader then .stop
  else if bytes.take 8 ≠ walMagic then .bad .walMagic
  else
    let op := (bytes.drop 8).headD 0
    let keyLen := LittleEndian.read ((bytes.drop 9).take 4)
    let valLen := LittleEndian.read ((bytes.drop 13).take 4)
    let rest := bytes.drop walHeader
    if rest.length < keyLen + valLen then .bad .walLength
    else
      let body := rest.take (keyLen + valLen)
      if (checksumIEEE (op::body)).toNat ≠ LittleEndian.read ((bytes.drop 17).take 4) then .bad .walChecksum
      else if known op = false then .bad (.walOperation op)
      else .record op (body.take keyLen) (body.drop keyLen) (rest.drop (keyLen + valLen))

variable {σ : Type} (apply : UInt8 → Bytes → Bytes → Proc Error σ Unit)

def applyAll : List BatchOp → Proc Error σ Unit
  | [] => pure ()
  | op::ops => do
    apply (if op.delete then walDelete else walPut) op.key op.value
    applyAll ops

/-- The replay loop; `pending` are the operations of the transactions met so far. -/
def replayFrom : Nat → Bytes → (Nat → List BatchOp) → Proc Error σ Unit
  | 0,_,_ => throw .diverges
  | fuel+1,bytes,pending =>
    match next bytes with
    | .stop => pure ()
    | .bad e => throw e
    | .record op key value rest =>
      if op = walTxPut ∨ op = walTxDelete then
        if key.length < 8 then throw .walTransactionKey
        else
          let id := LittleEndian.read (key.take 8)
          let batched : BatchOp := ⟨key.drop 8,value,op = walTxDelete⟩
          replayFrom fuel rest (Function.update pending id (pending id ++ [batched]))
      else if op = walTxCommit then
        if key.length ≠ 8 then throw .walCommit
        else do
          let id := LittleEndian.read (key.take 8)
          applyAll apply (pending id)
          replayFrom fuel rest (Function.update pending id [])
      else do
        apply op key value
        replayFrom fuel rest pending

-- Each turn takes a header of 21 bytes at least.
def replay (wal : Bytes) : Proc Error σ Unit := replayFrom apply (wal.length + 1) wal (fun _ => [])

end Wal
end GoDb
