/-! # Environments and memories

  An environment gives every scalar its value, a memory every element of every buffer its content.
  Both are functions, so two of them are equal when they agree everywhere. An element may be without
  content.

  The lemmas say what is read back after a change. -/

namespace LoopNest

/-- The values of scalars. -/
abbrev Env := String → Int

/-- The same environment but for one scalar. -/
def Env.set (env : Env) (name : String) (value : Int) : Env :=
  fun x => if x = name then value else env x

namespace Env

@[simp] theorem set_self (env : Env) (name : String) (value : Int) :
    env.set name value name = value := by
  simp [set]

@[simp] theorem set_ne {env : Env} {name x : String} {value : Int} (h : x ≠ name) :
    env.set name value x = env x := by
  simp [set, h]

end Env

/-- The content of the elements of one buffer. -/
abbrev Cells := List Int → Option Int

/-- The content of the elements of all buffers. -/
abbrev Memory := String → Cells

namespace Memory

/-- No element has a content. -/
def blank : Memory := fun _ _ => none

/-- The same memory but for one element. -/
def put (m : Memory) (buffer : String) (indices : List Int) (value : Int) : Memory :=
  fun b is => if b = buffer ∧ is = indices then some value else m b is

/-- The same memory but for one buffer. -/
def exchange (m : Memory) (buffer : String) (cells : Cells) : Memory :=
  fun b => if b = buffer then cells else m b

@[simp] theorem put_self (m : Memory) (b : String) (is : List Int) (v : Int) :
    m.put b is v b is = some v := by
  simp [put]

@[simp] theorem put_ne_buffer {m : Memory} {b c : String} {is : List Int} {v : Int} (h : c ≠ b) :
    m.put b is v c = m c := by
  funext js
  simp [put, h]

@[simp] theorem put_ne_indices {m : Memory} {b : String} {is js : List Int} {v : Int} (h : js ≠ is) :
    m.put b is v b js = m b js := by
  simp [put, h]

@[simp] theorem exchange_self (m : Memory) (b : String) (cells : Cells) :
    m.exchange b cells b = cells := by
  simp [exchange]

@[simp] theorem exchange_ne {m : Memory} {b c : String} {cells : Cells} (h : c ≠ b) :
    m.exchange b cells c = m c := by
  simp [exchange, h]

/-- A buffer that gets back what it had is unchanged. -/
@[simp] theorem exchange_same (m : Memory) (b : String) : m.exchange b (m b) = m := by
  funext c
  by_cases h : c = b <;> simp_all [exchange]

@[simp] theorem exchange_exchange (m : Memory) (b : String) (cells cells' : Cells) :
    (m.exchange b cells).exchange b cells' = m.exchange b cells' := by
  funext c
  by_cases h : c = b <;> simp [exchange, h]

end Memory

end LoopNest
