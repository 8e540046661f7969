import Mathlib.Data.List.Sort
import Mathlib.Tactic
import ResDB.Library.Run
import ResDB.Pbft.ViewChange

/-! `Recovery`: the log of requests, in files that carry in their names when they were made,
the range of sequence numbers in them and the checkpoint of that time. A file is read back as
it was written. Times are those that `GenerateFile` takes from the clock. -/
namespace ResDB
open Pbft (RequestInfo toInt64 toInt32)

/-- A file with the fields of its name. The file in use, and one that was put away without a
request in it, have -1 for the range. -/
structure LogFile where
  time : ℕ
  minSeq : Int := -1
  maxSeq : Int := -1
  ckpt : ℕ
  requests : List RequestInfo := []
  deriving DecidableEq

/-- The directory and the fields of the object; `current` is the time in the name of the file
in use. The history is what was logged and the largest checkpoint. -/
structure Recovery where
  dir : List LogFile
  current : ℕ
  minSeq : Int := -1
  maxSeq : Int := -1
  clock : ℕ
  logged : List RequestInfo := []
  passed : ℕ := 0

namespace Recovery
variable (s : Recovery)

def initial (time : ℕ) : Recovery where
  dir := [{ time := time, ckpt := 0 }]
  current := time
  clock := time

def append (info : RequestInfo) (f : LogFile) : LogFile :=
  if f.time = s.current then { f with requests := f.requests ++ [info] } else f

def writeLog (info : RequestInfo) : Recovery :=
  { s with
    dir := s.dir.map (s.append info)
    minSeq :=
      if s.minSeq = -1 then toInt64 info.request.seq
      else min s.minSeq (toInt64 info.request.seq)
    maxSeq := max s.maxSeq (toInt64 info.request.seq)
    logged := s.logged ++ [info] }

def rename (ckpt time : ℕ) (f : LogFile) : LogFile :=
  if f.time = s.current then
    { f with time := time, minSeq := s.minSeq, maxSeq := s.maxSeq, ckpt := ckpt }
  else f

/-- `FinishFile`, with the times of its two calls of `GenerateFile`. -/
def finishFile (ckpt time time' : ℕ) : Recovery :=
  { s with
    dir := s.dir.map (s.rename ckpt time) ++ [{ time := time', ckpt := ckpt }]
    current := time'
    minSeq := -1
    maxSeq := -1
    clock := time'
    passed := ckpt }

/-- The loop of `GetLastFile`, over its checkpoint, time and file. The time is cut to an `int`
when it is kept. -/
def pickFile (picked : Int × Int × ℕ) (f : LogFile) : Int × Int × ℕ :=
  if f.minSeq = -1 ∧ (picked.1 = -1 ∨ picked.2.1 < f.time) then
    (f.ckpt, toInt32 f.time, f.time)
  else picked

/-- The range that `SwitchFile` finds in a file: its minimum is the first number. -/
def rangeOf (requests : List RequestInfo) : Int × Int :=
  (requests.filter (fun info => 0 < info.request.seq)).foldl (fun range info =>
    (if range.1 = -1 then toInt64 info.request.seq else range.1,
      max range.2 (toInt64 info.request.seq))) (-1, -1)

def switchFile (time : ℕ) : Recovery :=
  let requests := (s.dir.filter (fun f => f.time = time)).flatMap (fun f => f.requests)
  { s with
    current := time
    minSeq := (rangeOf requests).1
    maxSeq := (rangeOf requests).2 }

/-- A clean restart, with the files in the order in which the directory lists them. -/
def restart (listing : List LogFile) (time : ℕ) : Recovery :=
  let picked := listing.foldl pickFile (-1, 0, 0)
  if picked.1 = -1 then
    { s with
      dir := s.dir ++ [{ time := time, ckpt := 0 }]
      current := time
      minSeq := -1
      maxSeq := -1
      clock := time }
  else s.switchFile picked.2.2

def lastCkpt : ℕ := (s.dir.map (fun f => f.ckpt)).foldr max 0

def byTime (files : List LogFile) : List LogFile :=
  files.insertionSort (fun f g => f.time ≤ g.time)

/-- `GetRecoveryFiles`: the files whose range has the checkpoint in it, and the latest of
those that are named as in use, which it takes to exist. Only files that end in `.log` are
listed, and so `recovery_path` is taken to have that extension or none, for which it is added. -/
def getRecoveryFiles : Option (List LogFile) :=
  let list := s.dir.filter (fun f =>
    f.minSeq ≠ -1 ∧ f.minSeq ≤ (s.lastCkpt : Int) ∧ (s.lastCkpt : Int) ≤ f.maxSeq)
  (byTime (s.dir.filter (fun f => f.minSeq = -1))).getLast?.map (fun latest =>
    byTime (list ++ [latest]))

def recovered (info : RequestInfo) : RequestInfo :=
  { info with request := { info.request with isRecovery := true } }

def readLogsFromFiles (ckpt : ℕ) (f : LogFile) : List RequestInfo :=
  (f.requests.filter (fun info => ckpt < info.request.seq)).map recovered

def readLogs : Option (List RequestInfo) :=
  s.getRecoveryFiles.map (fun files => files.flatMap (readLogsFromFiles s.lastCkpt))

inductive Event where
  | write (info : RequestInfo)
  | finish (ckpt time time' : ℕ)
  | restart (listing : List LogFile) (time : ℕ)

/-- Checkpoints do not decrease, and times increase. -/
def step : Event → Option Recovery
  | .write info => some (s.writeLog info)
  | .finish ckpt time time' =>
      if s.passed ≤ ckpt ∧ s.clock < time ∧ time < time' then some (s.finishFile ckpt time time')
      else none
  | .restart listing time =>
      if listing.Perm s.dir ∧ s.clock < time then some (s.restart listing time) else none

end Recovery
end ResDB
