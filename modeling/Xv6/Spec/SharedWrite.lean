import Xv6.Spec.Blocks

/-! Processes that write through one `struct file`. They take turns: the steps of a process
are the `begin_op` of a round of `filewrite`, its part under the lock of the inode, and its
`end_op`. -/

namespace Xv6

namespace FsOps

variable {m : Type → Type} [Monad m] (o : FsOps m)

def writePiece (f : Fin NFILE) (src1 : List UInt8) : m ℤ := do
  let file ← o.file f
  o.ilock file.ip
  let file ← o.file f
  let r ← o.writei file.ip src1 file.off
  (if r > 0 then o.advance f r.toNat else pure ())
  o.iunlock file.ip
  return r

/-- The pieces that the loop of `filewrite` cuts its bytes into. -/
def pieces (src : List UInt8) : List (List UInt8) :=
  if src = [] then [] else src.take maxPiece :: pieces (src.drop maxPiece)
termination_by src.length
decreasing_by
  have : 0 < maxPiece := by decide
  have : 0 < src.length := List.length_pos_of_ne_nil ‹_›
  simp only [List.length_drop]
  omega

end FsOps

/-- Where a process is in its loop: before `begin_op`, before `ilock`, or before `end_op` with
the result `r` of `writei` for a piece of `n` bytes. -/
inductive WriteStage where
  | start
  | begun
  | wrote (r : ℤ) (n : ℕ)
deriving DecidableEq, Repr

/-- `rest p` are the bytes that process `p` has not passed to `writei` yet, none once its call
has returned. `order` is history: the pieces passed to `writei`, the last one last. -/
structure Writers (P : Type) where
  fs : Fs
  rest : P → List UInt8
  stage : P → WriteStage
  order : List (P × List UInt8)

inductive WriteAct (P : Type) where
  | beginOp (p : P)
  | piece (p : P)
  | endOp (p : P)

namespace Writers

variable {P : Type} [DecidableEq P]

def init (s : Fs) (src : P → List UInt8) : Writers P := ⟨s, src, fun _ => .start, []⟩

def step (f : Fin NFILE) (w : Writers P) : WriteAct P → Option (Writers P)
  | .beginOp p =>
    if w.stage p = .start ∧ w.rest p ≠ [] then
      match Fs.ops.beginOp w.fs with
      | .ok _ s => some { w with fs := s, stage := Function.update w.stage p .begun }
      | .halt _ _ => none
    else none
  | .piece p =>
    if w.stage p = .begun then
      let src1 := (w.rest p).take FsOps.maxPiece
      match Fs.ops.writePiece f src1 w.fs with
      | .ok r s => some
        { fs := s
          rest := Function.update w.rest p ((w.rest p).drop FsOps.maxPiece)
          stage := Function.update w.stage p (.wrote r src1.length)
          order := w.order ++ [(p, src1)] }
      | .halt _ _ => none
    else none
  | .endOp p =>
    match w.stage p with
    | .wrote r n =>
      match Fs.ops.endOp w.fs with
      | .ok _ s =>
        -- `break` on an error, else a short write panics
        if r < 0 then some { w with
          fs := s, rest := Function.update w.rest p [], stage := Function.update w.stage p .start }
        else if r ≠ n then none
        else some { w with fs := s, stage := Function.update w.stage p .start }
      | .halt _ _ => none
    | _ => none

def piecesOf (order : List (P × List UInt8)) (p : P) : List (List UInt8) :=
  (order.filter fun x => x.1 = p).map Prod.snd

def bytes (order : List (P × List UInt8)) : List UInt8 := (order.map Prod.snd).flatten

end Writers

end Xv6
