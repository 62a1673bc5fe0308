import Mustache.Tag
import Mustache.Data.Context

/-! The context stack: where names are looked up. -/
namespace Mustache

open Data

/-- Nodes that are in context, the innermost on top. The root is always there. -/
structure Stack (ν : Type) where
  top : ν
  outer : List ν
  deriving DecidableEq, Repr

namespace Stack

variable {ν : Type}

def ofRoot (root : ν) : Stack ν := ⟨root, []⟩

def push (s : Stack ν) (node : ν) : Stack ν := ⟨node, s.top :: s.outer⟩

/-- All nodes in context, the innermost first. -/
def frames (s : Stack ν) : List ν := s.top :: s.outer

@[simp] theorem frames_push (s : Stack ν) (node : ν) :
    (s.push node).frames = node :: s.frames := rfl

/-- The first member of a name that a frame has, from the innermost frame outwards. -/
def lookup? (C : Context ν) (s : Stack ν) (name : Text) : Option ν :=
  s.frames.findSome? (C.child? · name)

/-- The node that a path leads to. A dot is the top frame; otherwise the first segment is looked up
in the frames, and the others only inside what it leads to. -/
def resolve? (C : Context ν) (s : Stack ν) (path : Text) : Option ν :=
  if path = ['.'] then some s.top
  else match Tag.segments path with
    | [] => none
    | first :: rest => (s.lookup? C first).bind fun node => rest.foldlM C.child? node

@[simp] theorem resolve?_dot (C : Context ν) (s : Stack ν) : s.resolve? C ['.'] = some s.top := by
  simp [resolve?]

end Stack
end Mustache
