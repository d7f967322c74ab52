/-
  Moving objects in the object tree.

  The children of an object form a list: the child link of the parent leads
  to the first, the sibling link of each to the next.  Walks along links are
  bounded by the number of objects, so that cyclic links are found out.
-/
import ZMachine.ObjectTable.Basic

namespace ZMachine
namespace ObjectTable

/-- Take `object` out of the list that continues with `current`, by leading the link before it to
`next`.  A list that does not hold the object is left as it is. -/
def unlink (t : ObjectTable) (object next : Word) : Nat → Word → MemoryM Unit
  | bound, current => do
      if current = 0 then return ()
      let following ← MemoryM.query fun m => t.link m .sibling current
      if following = object then t.setLink .sibling current next
      else
        match bound with
        | 0 => throw (.invalidObject following)
        | bound + 1 => t.unlink object next bound following

/-- Take an object out of the tree, with everything below it. -/
def remove (t : ObjectTable) (object : Word) : MemoryM Unit := do
  let parent ← MemoryM.query fun m => t.link m .parent object
  if parent = 0 then return ()
  let next ← MemoryM.query fun m => t.link m .sibling object
  let first ← MemoryM.query fun m => t.link m .child parent
  if first = object then t.setLink .child parent next
  else t.unlink object next t.count first
  t.setLink .parent object 0
  t.setLink .sibling object 0

/-- Fails if `object` is met on the way from `current` to the root. -/
def checkAncestors (t : ObjectTable) (m : Memory) (object destination : Word) :
    Nat → Word → Except Fault Unit
  | bound, current => do
      if current = 0 then return ()
      if current = object then throw (.invalidObject object)
      let parent ← t.link m .parent current
      match bound with
      | 0 => throw (.invalidObject destination)
      | bound + 1 => t.checkAncestors m object destination bound parent

/-- Make an object the first child of another, unless that lies below it. -/
def insert (t : ObjectTable) (object destination : Word) : MemoryM Unit := do
  discard <| t.entry object
  discard <| t.entry destination
  MemoryM.query fun m => t.checkAncestors m object destination t.count destination
  t.remove object
  let first ← MemoryM.query fun m => t.link m .child destination
  t.setLink .sibling object first
  t.setLink .child destination object
  t.setLink .parent object destination

end ObjectTable
end ZMachine
