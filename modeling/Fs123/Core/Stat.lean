import Fs123.Common.Decimal

/-!
# The text of `stat` and `statvfs`

The stream inserters of `stat_serializev3.hpp`: the fields in decimal, separated by single spaces.
Field types are those of Linux on 64-bit machines.
-/

namespace Fs123

open Cxx

/-- The transmitted fields of `struct stat`. -/
structure Stat where
  mode : UInt32
  nlink : UInt64
  uid : UInt32
  gid : UInt32
  size : Int64
  mtime : Int64
  ctime : Int64
  atime : Int64
  ino : UInt64
  mtimNsec : Int64
  ctimNsec : Int64
  atimNsec : Int64
  dev : UInt64
  blocks : Int64
  blksize : Int64
  rdev : UInt64
  deriving DecidableEq

/-- The transmitted fields of `struct statvfs`. -/
structure Statvfs where
  bsize : UInt64
  frsize : UInt64
  blocks : UInt64
  bfree : UInt64
  bavail : UInt64
  files : UInt64
  ffree : UInt64
  favail : UInt64
  fsid : UInt64
  flag : UInt64
  namemax : UInt64
  deriving DecidableEq

/-- Fields separated by single spaces. -/
def spaced (fields : List Bytes) : Bytes := [ch ' '].intercalate fields

/-- `os << sb` for a `struct stat`. -/
def Stat.text (sb : Stat) : Bytes :=
  spaced [decimal sb.mode.toNat, decimal sb.nlink.toNat, decimal sb.uid.toNat, decimal sb.gid.toNat,
    decimalInt sb.size.toInt, decimalInt sb.mtime.toInt, decimalInt sb.ctime.toInt,
    decimalInt sb.atime.toInt, decimal sb.ino.toNat, decimalInt sb.mtimNsec.toInt,
    decimalInt sb.ctimNsec.toInt, decimalInt sb.atimNsec.toInt, decimal sb.dev.toNat,
    decimalInt sb.blocks.toInt, decimalInt sb.blksize.toInt, decimal sb.rdev.toNat]

/-- `os << sb` for a `struct statvfs`. -/
def Statvfs.text (sb : Statvfs) : Bytes :=
  spaced [decimal sb.bsize.toNat, decimal sb.frsize.toNat, decimal sb.blocks.toNat,
    decimal sb.bfree.toNat, decimal sb.bavail.toNat, decimal sb.files.toNat, decimal sb.ffree.toNat,
    decimal sb.favail.toNat, decimal sb.fsid.toNat, decimal sb.flag.toNat, decimal sb.namemax.toNat]

end Fs123
