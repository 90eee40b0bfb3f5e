import TensorGraph.Number.Word
import TensorGraph.Text.Blank

/-!
# Settings

`Config` holds the settings that executors and kernel schedulers share.  `Config.ofLookup` reads
them from named texts (an environment); a text that is no number of workers or no amount of work
leaves the default in place.
-/

namespace TensorGraph

/-- Settings of executors and kernel schedulers. -/
structure Config where
  /-- Workers for fused operators; none leaves the choice to the machine. -/
  threads : Option Nat
  /-- Innermost extent below which a planned domain is collapsed. -/
  minKernelWork : Nat
  /-- Whether intermediate tensors of one call may be used again by the next. -/
  reuseIntermediates : Bool
deriving DecidableEq, Repr

namespace Config

/-- The settings of a program that sets none. -/
def standard : Config := ⟨none, 256, true⟩

/-- Name under which the number of workers is looked up. -/
def threadsKey : String := "GRAPHRT_NUM_THREADS"

/-- Name under which the least innermost work is looked up. -/
def minKernelWorkKey : String := "GRAPHRT_MIN_KERNEL_WORK"

/-- Name under which reuse of intermediates is looked up. -/
def reuseKey : String := "GRAPHRT_REUSE_INTERMEDIATES"

/-- The words that turn a setting on, in any ASCII case; every other text turns it off. -/
def isAffirmative (text : String) : Bool :=
  ["1", "true", "yes", "on"].contains (Text.lowerAscii (Text.trim text))

/-- The standard settings, changed by the texts that are found.  Zero workers are ignored, zero
work counts as one, and a blank text for the reuse setting is ignored. -/
def ofLookup (find? : String → Option String) : Config :=
  let number? (key : String) : Option Nat :=
    (find? key).bind fun text => Word.parse? (Text.trim text)
  { threads := (number? threadsKey).filter (0 < ·)
    minKernelWork := ((number? minKernelWorkKey).map (max 1)).getD standard.minKernelWork
    reuseIntermediates :=
      match find? reuseKey with
      | some text =>
        if (Text.trim text).isEmpty then standard.reuseIntermediates else isAffirmative text
      | none => standard.reuseIntermediates }

/-- The settings with at least one and otherwise `n` workers. -/
def withThreads (c : Config) (n : Nat) : Config := { c with threads := some (max 1 n) }

/-- The settings with a least innermost work of `n`, or of one. -/
def withMinKernelWork (c : Config) (n : Nat) : Config := { c with minKernelWork := max 1 n }

/-- The settings with reuse of intermediates turned on or off. -/
def withReuse (c : Config) (enabled : Bool) : Config := { c with reuseIntermediates := enabled }

/-- The number of workers that a planner and a scheduler go by: at least one, and as many as are
available where the settings leave the choice to the machine. -/
def workers (c : Config) (available : Nat) : Nat := max 1 (c.threads.getD available)

end Config

end TensorGraph
