import Myfuse.Layout

/-! The ways a modelled call can fail to return. -/

namespace Myfuse

/-- The calls of `err_exit`, each with its message. -/
inductive Fatal where
  | committing | tooBigTransaction | loggedWriteOutside
  | noFreeSpace
  | tooManyFiles | invalidInode | unusedInode | invalidType | tooManyBlocks | inodeTooBig | inodeTooBigFree
  | dirlookupRead | dirlinkRead | dirlinkWrite | cwdNotImplemented
  | fileclose | filestat | notRegular | readdirRead | rmdirRead
  deriving DecidableEq, Repr

def Fatal.message : Fatal → String
  | committing => "log.committing"
  | tooBigTransaction => "too big a transaction"
  | loggedWriteOutside => "logged_write outside of transaction"
  | noFreeSpace => "no more free space in disk!"
  | tooManyFiles => "too much file on disk!"
  | invalidInode => "ilock got invalid inode"
  | unusedInode => "ilock: ip is unused"
  | invalidType => "ilock: ip has invalid type"
  | tooManyBlocks => "too many blocks in one op"
  | inodeTooBig => "imap2blockno: inode too big"
  | inodeTooBigFree => "imap2blockno_free: inode too big"
  | dirlookupRead => "dirlookup: failed to read dir"
  | dirlinkRead => "dirlink: read failed"
  | dirlinkWrite => "dirlink: write entry failed"
  | cwdNotImplemented => "cwd not implemented"
  | fileclose => "fileclose: ref < 1"
  | filestat => "filestat: unknown file type"
  | notRegular => "must be regular file"
  | readdirRead => "dirlookup: failed to read dir"
  | rmdirRead => "myfuse_rmdir: inode_read_nbytes_unlocked failed to read"

inductive Exit where
  /-- `err_exit`: the process ends with status 1. -/
  | errExit (fatal : Fatal)
  /-- A failed `assert`. -/
  | assertion
  /-- A null dereference, an access out of bounds or a signed overflow. -/
  | undefined
  /-- The thread waits for a lock or a condition that it cannot be given by itself. -/
  | blocked
  deriving DecidableEq, Repr

end Myfuse
