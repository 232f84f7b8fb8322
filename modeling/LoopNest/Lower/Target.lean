import LoopNest.Program.Basic

/-! # Targets

  Programs are lowered for a processor or for a graphics device. The target decides which tags of
  parallel loops it can run and where buffers are put that the lowering introduces. -/

namespace LoopNest.Lower

inductive Device where
  | cpu
  | gpu
deriving DecidableEq, Repr, Inhabited

structure Target where
  device : Device
  /-- Where introduced buffers live. -/
  space : MemSpace
deriving DecidableEq, Repr, Inhabited

namespace Target

def cpu : Target := ⟨.cpu, .cpu⟩

def gpu : Target := ⟨.gpu, .gpuGlobal⟩

def name (t : Target) : String :=
  match t.device with
  | .cpu => "cpu"
  | .gpu => "gpu"

/-- Reads the name of a target, whatever the case of its letters. -/
def ofText? (s : String) : Option Target :=
  match String.ofList (s.toList.map Char.toLower) with
  | "cpu" => some cpu
  | "gpu" => some gpu
  | _ => none

/-- The tags of the loops that run over a graphics device. -/
def gpuTags : List String :=
  ["threadIdx.x", "threadIdx.y", "threadIdx.z", "blockIdx.x", "blockIdx.y", "blockIdx.z"]

/-- Whether loops with that tag can run in parallel. -/
def acceptsTag (t : Target) (tag : String) : Bool :=
  match t.device with
  | .cpu => tag == "openmp"
  | .gpu => gpuTags.contains tag

end Target

end LoopNest.Lower
