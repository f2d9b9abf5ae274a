import ShannonPrime.Lib.CInt

/-!
The adapters that rebuild an engine model from a loaded `.sp-model` file
(`sp_model_adapter.c`). Each sizes three tables by a formula of its architecture and then fills
them tensor by tensor: the synthetic tensors, the owned norms and the packed tensors. A write
past the end of a table, and a formula that overflows, leave no result.
-/

namespace ShannonPrime.Model

open CInt

inductive Dtype where
  | okQ8
  | frobeniusScaleFp32
  | f32
  | other
  deriving DecidableEq

/-- `sp_tensor_entry`, and whether `sp_model_tensor_data` finds its data in the file. -/
structure TensorEntry where
  dtype_id : Dtype
  dims : List Nat
  size_bytes : Nat
  data : Bool

/-- The fields of `sp_arch_info` that the tables and the optional tensors depend on. -/
structure ArchInfo where
  arch_id : Nat
  n_layers : UInt32
  vocab_size : Nat
  has_qk_norm : Bool

structure SpModel where
  find_tensor : String → Option TensorEntry
  arch_id : Nat
  vocab_size : Nat
  arch_struct_size : Nat
  arch_struct : ArchInfo

/-- Which allocations succeed: the model, its tables, the buffers of a tensor, the arena. -/
structure Memory where
  model : Bool
  tables : Bool
  tensor : String → Bool
  arena : Bool

/-- How a tensor is taken over. A packed tensor that runs out of memory has written its
descriptor by then. -/
inductive Taken where
  | loaded
  | rejected (error : String)
  | exhausted (error : String)

section Tensors

variable (m : SpModel) (mem : Memory)

def rebuild_q8 (name : String) : Taken :=
  match m.find_tensor name with
  | none => .rejected "adapter: missing OK_Q8 tensor"
  | some codes_e =>
      match codes_e.dtype_id, codes_e.dims with
      | .okQ8, d0 :: d1 :: _ =>
          match m.find_tensor (name ++ ".scale") with
          | none => .rejected "adapter: missing .scale sibling"
          | some scale_e =>
              let cols := wrap d0
              let rows := wrap d1
              if scale_e.dtype_id ≠ .frobeniusScaleFp32 then
                .rejected "adapter: missing .scale sibling"
              else if cols ≤ 0 ∨ rows ≤ 0 then .rejected "adapter: bad Q8 dims"
              else if codes_e.size_bytes ≠ rows * cols then .rejected "adapter: Q8 size mismatch"
              else if scale_e.size_bytes ≠ rows * 4 then .rejected "adapter: scale size mismatch"
              else if codes_e.data = false ∨ scale_e.data = false then
                .rejected "adapter: tensor data OOB"
              else if mem.tensor name then .loaded
              else .exhausted "adapter: OOM packed tensor"
      | _, _ => .rejected "adapter: tensor not OK_Q8 rank>=2"

def copy_f32 (name : String) : Taken :=
  match m.find_tensor name with
  | none => .rejected "adapter: missing F32 norm"
  | some e =>
      if e.dtype_id ≠ .f32 then .rejected "adapter: missing F32 norm"
      else if e.data = false then .rejected "adapter: norm data OOB"
      else if mem.tensor name then .loaded
      else .rejected "adapter: OOM norm"

/-- The sizes of the tables `T`, `norm_src` and `ats`. -/
structure Caps where
  n_t : Nat
  norm_cap : Nat
  arena_cap : Nat

/-- `ti`, `ni`, `ai` and `rc`, and the last error that was set. -/
structure Filled where
  ti : Nat
  ni : Nat
  ai : Nat
  rc : Bool
  error : String

inductive Add where
  | norm (name : String)
  | q8 (name : String)

variable (caps : Caps)

/-- `NEW_T` -/
def newT (s : Filled) : Option Filled :=
  if s.ti < caps.n_t then some { s with ti := s.ti + 1 } else none

/-- `ADD_NORM`, which takes its slots when the buffer is there. -/
def addNorm (name : String) (s : Filled) : Option Filled :=
  match copy_f32 m mem name with
  | .loaded => do
      let s ← newT caps s
      if s.ni < caps.norm_cap then some { s with ni := s.ni + 1 } else none
  | .rejected e | .exhausted e => some { s with rc := true, error := e }

/-- `ADD_Q8`, which takes a tensor slot whatever becomes of the tensor. -/
def addQ8 (name : String) (s : Filled) : Option Filled := do
  let s ← newT caps s
  match rebuild_q8 m mem name with
  | .rejected e => some { s with rc := true, error := e }
  | .exhausted e => if s.ai < caps.arena_cap then some { s with rc := true, error := e } else none
  | .loaded => if s.ai < caps.arena_cap then some { s with ai := s.ai + 1 } else none

def add (s : Filled) : Add → Option Filled
  | .norm name => addNorm m mem caps name s
  | .q8 name => addQ8 m mem caps name s

/-- The layers in turn, until one of them has failed. -/
def addStages : List (List Add) → Filled → Option Filled
  | [], s => some s
  | l :: ls, s => if s.rc then some s else (l.foldlM (add m mem caps) s).bind (addStages ls)

end Tensors

/-! ## The architectures -/

def archIdGemma3 : Nat := 3

def archIdQwen25 : Nat := 6

def blk (i : Nat) (suffix : String) : String := "blk." ++ toString i ++ "." ++ suffix

/-- The embedding, the output norm, and the head of an untied model. -/
def headAdds (m : SpModel) : List Add :=
  [.q8 "token_embd.weight", .norm "output_norm.weight"] ++
    if (m.find_tensor "output.weight").isSome then [.q8 "output.weight"] else []

def qwen3Layer (sai : ArchInfo) (i : Nat) : List Add :=
  [.norm (blk i "attn_norm.weight"), .q8 (blk i "attn_q.weight"), .q8 (blk i "attn_k.weight"),
    .q8 (blk i "attn_v.weight"), .q8 (blk i "attn_output.weight"), .norm (blk i "ffn_norm.weight"),
    .q8 (blk i "ffn_gate.weight"), .q8 (blk i "ffn_up.weight"), .q8 (blk i "ffn_down.weight")] ++
    if sai.arch_id = archIdGemma3 then
      [.norm (blk i "attn_q_norm.weight"), .norm (blk i "attn_k_norm.weight"),
        .norm (blk i "post_attention_norm.weight"), .norm (blk i "post_ffw_norm.weight")]
    else if sai.has_qk_norm then
      [.norm (blk i "attn_q_norm.weight"), .norm (blk i "attn_k_norm.weight")]
    else []

def qwen25Layer (i : Nat) : List Add :=
  [.norm (blk i "attn_norm.weight"), .q8 (blk i "attn_q.weight"), .q8 (blk i "attn_k.weight"),
    .q8 (blk i "attn_v.weight"), .q8 (blk i "attn_output.weight"), .norm (blk i "attn_q.bias"),
    .norm (blk i "attn_k.bias"), .norm (blk i "attn_v.bias"), .norm (blk i "ffn_norm.weight"),
    .q8 (blk i "ffn_gate.weight"), .q8 (blk i "ffn_up.weight"), .q8 (blk i "ffn_down.weight")]

/-- `base + (int)n_layers * each` -/
def tableSize (base each : Int) (n_layers : UInt32) : Option Int := do
  let layers ← checked (wrap n_layers.toNat * each)
  checked (base + layers)

/-- What a table of a negative size is asked for is more than there is. -/
def allocate (mem : Memory) (n_t norm_cap arena_cap : Int) : Option Caps :=
  if mem.tables ∧ 0 ≤ n_t ∧ 0 ≤ norm_cap ∧ 0 ≤ arena_cap then
    some { n_t := n_t.toNat, norm_cap := norm_cap.toNat, arena_cap := arena_cap.toNat }
  else none

/-- What a builder leaves of a model: how much of its tables it has used, and whether the head
is the embedding. -/
structure Adapted where
  n_t : Nat
  n_norm : Nat
  n_packed : Nat
  tied_embedding : Bool

/-- The part that the builders share: from the sizes on. -/
def build (m : SpModel) (mem : Memory) (tag : String) (sizes : Option (Int × Int × Int))
    (layers : List (List Add)) : Option (Except String Adapted) := do
  let size ← sizes
  match allocate mem size.1 size.2.1 size.2.2 with
  | none => some (.error (tag ++ ": OOM tables"))
  | some caps => do
      let s ← addStages m mem caps (headAdds m :: layers) ⟨0, 0, 0, false, ""⟩
      if s.rc then some (.error s.error)
      else if mem.arena then
        some (.ok ⟨s.ti, s.ni, s.ai, (m.find_tensor "output.weight").isNone⟩)
      else some (.error (tag ++ ": arena build"))

def qwen3Sizes (n_layers : UInt32) : Option (Int × Int × Int) := do
  let n_t ← tableSize 2 13 n_layers
  let norm_cap ← tableSize 1 6 n_layers
  let arena_cap ← tableSize 2 7 n_layers
  some (n_t, norm_cap, arena_cap)

def qwen25Sizes (has_output_w : Nat) (n_layers : UInt32) : Option (Int × Int × Int) := do
  let n_t ← tableSize (2 + has_output_w) 12 n_layers
  let norm_cap ← tableSize 1 5 n_layers
  let arena_cap ← tableSize (1 + has_output_w) 7 n_layers
  some (n_t, norm_cap, arena_cap)

/-- `sp_model_to_qwen3`; `base` is the offset of `n_ff` in `sp_arch_info`. Every architecture
but Gemma3 is taken for Qwen3. -/
def sp_model_to_qwen3 (base : Nat) (m : SpModel) (mem : Memory) :
    Option (Except String Adapted) :=
  let sai := m.arch_struct
  if mem.model = false then some (.error "adapter: OOM model")
  else if m.arch_struct_size < base then
    some (.error "adapter: arch_struct too small for base sp_arch_info")
  else if sai.vocab_size ≠ m.vocab_size then
    some (.error "adapter: vocab mismatch arch_struct")
  else build m mem "adapter" (qwen3Sizes sai.n_layers)
    ((List.range sai.n_layers.toNat).map (qwen3Layer sai))

def sp_model_to_qwen25 (base : Nat) (m : SpModel) (mem : Memory) :
    Option (Except String Adapted) :=
  let sai := m.arch_struct
  if m.arch_id ≠ archIdQwen25 then
    some (.error "sp_model_to_qwen25: model is not Qwen2.5")
  else if m.arch_struct_size < base then
    some (.error "adapter25: arch_struct too small for base sp_arch_info")
  else if sai.vocab_size ≠ m.vocab_size then
    some (.error "adapter25: vocab mismatch arch_struct")
  else if mem.model = false then some (.error "adapter25: OOM model")
  else
    let has_output_w := if (m.find_tensor "output.weight").isSome then 1 else 0
    build m mem "adapter25" (qwen25Sizes has_output_w sai.n_layers)
      ((List.range sai.n_layers.toNat).map qwen25Layer)

end ShannonPrime.Model
