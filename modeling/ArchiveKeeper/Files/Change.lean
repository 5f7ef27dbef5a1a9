import ArchiveKeeper.Files.Tree

namespace ArchiveKeeper.Files

inductive Change where
  | remove (p : Path)
  | put (p : Path) (node : Node)
deriving Repr

namespace Tree

/-- The paths that have to give way: what is gone, and files and directories that stand where the
other is wanted. The deeper ones come first. -/
def obsolete (before after : Tree) : List Path :=
  ((before.nodes.filter fun n =>
      (after.node? n.1).map Node.isDirectory ≠ some n.2.isDirectory).map Prod.fst).mergeSort
    fun p q => q.length ≤ p.length

/-- The nodes that are new or not as they were, the upper ones first. -/
def changed (before after : Tree) : List (Path × Node) :=
  (after.nodes.filter fun n => before.node? n.1 ≠ some n.2).mergeSort
    fun m n => m.1.length ≤ n.1.length

def changes (before after : Tree) : List Change :=
  (obsolete before after).map .remove ++ (changed before after).map fun n => .put n.1 n.2

end Tree

end ArchiveKeeper.Files
