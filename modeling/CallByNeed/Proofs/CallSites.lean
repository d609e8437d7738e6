import CallByNeed.Proofs.Accounts

/- The call sites that faults pass. While a cell is being forced, it keeps the site of the work that it
   has taken last, and this is the one site that its fault passes. So the fault of a call with a site
   has passed a site, unless a tail without one was taken over on the way. -/
namespace CallByNeed
open Relation (ReflTransGen)

section
variable {handed : List (Ref × Ref)} {r d t : Ref}

end

/-! ### Running cells and their sites -/

def Control.sites : Control → List (Ref × Option Location)
  | .run cell site _ => [(cell, site)]
  | _ => []

def Frame.sited (frame : Frame) : Ref × Option Location := (frame.cell, frame.site)

/-- The cells that a thread is forcing, each with the site that its fault would pass now. -/
def Forcer.sites (f : Forcer) : List (Ref × Option Location) :=
  match f.runner with
  | .ready _ => []
  | .forcing _ _ _ c frames => c.sites ++ frames.map Frame.sited

section
variable {E : Engine} {g g' h h' : Heap} {s s' : Store} {c c' : Control}
variable {frames frames' : List Frame} {handed new : List (Ref × Ref)}
variable {sites sites' before after : List (Ref × Option Location)}

end

/-! ### Turns and runs -/

namespace Forcer
variable {E : Engine} {g : Heap} {f : Forcer} {fs before after : List Forcer} {x x' : Recorded}

end Forcer

end CallByNeed
