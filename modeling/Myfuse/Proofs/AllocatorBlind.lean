import Myfuse.BlockAllocator
import Myfuse.Library.TwoRuns

/-! What the allocator does not look at: two states in which its own memory and the
log agree are taken to two such states by its functions, with the same result. -/

namespace Myfuse
open Library Library.Exec

namespace FS
variable {related : FS → FS → Prop}

/-- The states differ only outside of what the allocator reads, and a difference survives what it writes. -/
structure OutsideAllocator (related : FS → FS → Prop) : Prop where
  sb : ∀ {fs fs'}, related fs fs' → fs'.sb = fs.sb
  bmap : ∀ {fs fs'}, related fs fs' → fs'.bmap = fs.bmap
  log : ∀ {fs fs'}, related fs fs' → fs'.log = fs.log
  setBmap : ∀ {fs fs'} (bmap : BmapCache), related fs fs' → related { fs with bmap } { fs' with bmap }
  noted : ∀ {fs fs'} (event : Event), related fs fs' →
    related { fs with history := event :: fs.history } { fs' with history := event :: fs'.history }
  absorbed : ∀ {fs fs'} (blockno : Nat), related fs fs' →
    related { fs with n_log_wrote := fs.n_log_wrote + 1, log := fs.log.absorb blockno }
      { fs' with n_log_wrote := fs'.n_log_wrote + 1, log := fs'.log.absorb blockno }
  written : ∀ {fs fs'} (blockno : Nat) (change : Block → Block), related fs fs' →
    related { fs with store := assign fs.store blockno (change (fs.store blockno)) }
      { fs' with store := assign fs'.store blockno (change (fs'.store blockno)) }

section
variable (outside : OutsideAllocator related)
include outside

theorem note_blind (event : Event) : Blind related related (note event) := .modify fun _ _ same => outside.noted event same

theorem modifyBmap_blind (change : BmapCache → BmapCache) : Blind related related (modifyBmap change) :=
  .modify fun fs _ same => (outside.bmap same).symm ▸ outside.setBmap (change fs.bmap) same

theorem loggedWrite_blind (blockno : Nat) : Blind related related (loggedWrite blockno) := by
  apply Blind.read
  · intro fs fs' same
    rw [outside.log same]
  intro fs
  apply Blind.ite (.stop _ fun _ _ same => same)
  apply Blind.ite (.stop _ fun _ _ same => same)
  exact .bind (.modify fun _ _ same => outside.absorbed blockno same) fun _ => note_blind outside _

theorem loggedUpdate_blind (blockno : Nat) (change : Block → Block) : Blind related related (loggedUpdate blockno change) :=
  .bind (.modify fun _ _ same => outside.written blockno change same) fun _ => loggedWrite_blind outside blockno

theorem bmapBlockStatueSet_blind (blockno i : Nat) : Blind related related (bmapBlockStatueSet blockno i) := by
  apply Blind.read
  · intro fs fs' same
    rw [outside.sb same, outside.bmap same]
  intro fs
  apply Blind.ite (.stop _ fun _ _ same => same)
  exact .bind (modifyBmap_blind outside _) fun _ => loggedUpdate_blind outside _ _

theorem blockAllocUpdateCache_blind (free_cache_index first_free_block : Nat) :
    Blind related related (blockAllocUpdateCache free_cache_index first_free_block) := by
  refine .bind (modifyBmap_blind outside _) fun _ => .read (fun _ _ same => by rw [outside.bmap same]) fun fs => .ite ?_ ?_
  · refine .bind (modifyBmap_blind outside _) fun _ => .read (fun _ _ same => by rw [outside.bmap same]) fun fs => ?_
    split
    · exact modifyBmap_blind outside _
    · exact .bind (modifyBmap_blind outside _) fun _ => .stop _ fun _ _ same => same
  · dsimp only
    split
    · exact modifyBmap_blind outside _
    · exact .pure _

theorem blockAlloc_blind : Blind related related blockAlloc := by
  refine .read (fun _ _ same => by rw [outside.bmap same]) fun fs => .ite (.stop _ fun _ _ same => same) ?_
  refine .bind (bmapBlockStatueSet_blind outside _ _) fun _ => .bind (blockAllocUpdateCache_blind outside _ _) fun _ => ?_
  exact .bind (note_blind outside _) fun _ => .bind (loggedUpdate_blind outside _ _) fun _ => .pure _

theorem blockFree_blind (blockno : Nat) : Blind related related (blockFree blockno) :=
  .bind (bmapBlockStatueSet_blind outside _ _) fun _ => .bind (modifyBmap_blind outside _) fun _ => note_blind outside _

end

end FS
end Myfuse
