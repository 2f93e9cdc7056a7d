import LeastSquares.Problem

namespace LeastSquares.Problems

variable {α σ : Type}

structure Located (α σ : Type) where
  state : σ
  point : Array α

namespace Located

def moveTo (l : Located α σ) (x : Array α) : Except Fault (Located α σ) :=
  if x.size = l.point.size then .ok { l with point := x } else .error .shapeMismatch

variable [Zero α]

def residuals (p : Problem α σ) (l : Located α σ) : Located α σ × Answer (Array α) :=
  let reply := p.residuals l.state l.point (.replicate p.residualCount 0)
  ({ l with state := reply.state }, reply.answer)

def jacobian (p : Problem α σ) (l : Located α σ) : Located α σ × Answer (Jacobian α) :=
  let reply := p.jacobian l.state l.point (.zeros p.residualCount l.point.size)
  ({ l with state := reply.state }, reply.answer)

end Located

end LeastSquares.Problems
