import Sem3.Memory.Main

/-!
# The order of the options

What the command line has to be for the program to run without the faults of its own set-up. An `-a`
separates the options that still change the settings of the allocator from those that do not.
-/

namespace Sem3.Memory

/-- `-a`, whatever its argument. -/
def Opt.IsAlloc : Opt → Bool
  | .a _ _ => true
  | _ => false

/-- The options in front of the first `-a`. -/
def leading (opts : List Opt) : List Opt := opts.takeWhile (!·.IsAlloc)

/-- `-m`, `-b`, `-1` and `-w`. -/
def Vars.set (v : Vars) : Opt → Vars
  | .m memorySize => { v with memorySize := memorySize.toUInt32 }
  | .b blocksize => { v with blocksize := blocksize.toUInt32 }
  | .one => { v with strategy := .first }
  | .w => { v with strategy := .worst }
  | _ => v

/-- The settings at the first `-a`. -/
def settings (opts : List Opt) : Vars := (leading opts).foldl Vars.set {}

/-- The program works on the list only after it is set, and it never divides by 0. -/
def Guarded (result : Except Fault Vars) : Prop :=
  result ≠ .error .nullList ∧ result ≠ .error .divByZero

/-- No `-f` stands in front of the first `-a`, and if the block size is 0 there, then `mem_alloc`
turns every request away. -/
def InOrder (opts : List Opt) : Prop :=
  (∀ index, .f index ∉ leading opts) ∧
  ((settings opts).blocksize = 0 → ∀ size arena, .a size arena ∈ opts →
    size.toUInt32 = 0 ∨ size.toUInt32 > (settings opts).memorySize)

end Sem3.Memory
