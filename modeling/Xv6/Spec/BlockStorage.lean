import Xv6.Spec.Blocks
import Xv6.Spec.Kernel

/-! The kernel with inodes stored in disk blocks, as in `fs.c`. -/

namespace Xv6

structure Medium where
  sb : Superblock
  blocks : ℕ → Block

namespace Fs

/-- The state in which a process executes the functions of `fs.c` below the inode layer; they use
nothing but the disk, the inode cache and the log. -/
def ofVolume (v : Volume Medium) : Fs where
  sb := v.data.sb
  blocks := v.data.blocks
  icache := v.icache
  log := v.log
  brackets := []
  granted := []
  ftable _ := ⟨.none, 0, false, false, ⟨0, ninode_pos⟩, 0⟩
  ofile _ := none
  cwd := none
  devsw _ := ⟨none, none⟩
  isInit := false

def volume (s : Fs) : Volume Medium := ⟨⟨s.sb, s.blocks⟩, s.icache, s.log⟩

def onVolume {α : Type} (m : FsM α) : VolumeM Medium α := Exec.zoom ofVolume (fun s _ => s.volume) m

end Fs

def blockStorage : Storage Medium where
  ninodes t := t.sb.ninodes
  dinode t inum := Dinode.decode (t.blocks (IBLOCK inum t.sb)) (inodeOff inum)
  setDinode inum d := Fs.onVolume (Fs.setDinode inum d)
  truncBlocks ip := Fs.onVolume (Fs.truncBlocks ip)
  readFrom ip off n := Fs.onVolume (Fs.readFrom ip off n)
  writeFrom ip off src := Fs.onVolume (Fs.writeFrom ip off src)

end Xv6
