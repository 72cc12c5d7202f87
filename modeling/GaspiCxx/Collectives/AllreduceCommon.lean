import GaspiCxx.OneSided.Fabric

/-!
# The reduction of an allreduce (`AllreduceCommon`)
-/

namespace GaspiCxx.Collectives.AllreduceCommon

open OneSided

inductive ReductionOp where
  | SUM | PROD
  deriving DecidableEq, Repr

/-- `std::plus<T>` or `std::multiplies<T>`. -/
def ReductionOp.functor {T : Type} [Add T] [Mul T] : ReductionOp → T → T → T
  | .SUM => (· + ·)
  | .PROD => (· * ·)

variable {Port Loc T : Type} [DecidableEq Loc] {k : Nat}

/-- `std::transform(source, target, source, reduction_functor)` over two buffers
of `k` elements. -/
def apply_reduce_op (reduction_functor : T → T → T) (W : Wiring Port Loc)
    (F : Fabric Port Loc (Fin k → T)) (source target : Port) : Fabric Port Loc (Fin k → T) :=
  F.write (W.loc source) fun e => reduction_functor (F.mem (W.loc source) e) (F.mem (W.loc target) e)

end GaspiCxx.Collectives.AllreduceCommon
