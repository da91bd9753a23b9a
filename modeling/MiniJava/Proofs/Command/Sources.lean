import MiniJava.Proofs.Command.Delivery
import MiniJava.Proofs.Command.Names
/-!
# Sources and what is written over them

Nothing keeps a run from writing over the source that it has read: the file for C is named after the source, with another
ending, and the files of the listings after classes (`Session.Overwrites`).  The source is left alone just if none of them is
the source itself (`source_kept_iff`).
-/
namespace MiniJava

/-! ## What becomes of a file -/

section

variable {output : Output} {outputs : List Output} {t u left : FileTree} {place : List String}

end

/-! ## No output is a source

A source begins with the word `class`, behind blanks and comments.  The texts that are made begin with something else. -/

namespace Session.SourceAt

variable {s : Session} {o : Options} {place : List String} {text : String}

end Session.SourceAt

namespace Sample

end Sample

end MiniJava
