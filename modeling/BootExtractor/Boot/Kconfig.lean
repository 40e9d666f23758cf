import BootExtractor.Boot.Scan

/-!
# Kernel options

Whether the kernel of an entry was built with an option, by the `config-<release>`
file of its release.
-/

namespace BootExtractor.Boot

/-- The release in the file name of a kernel. -/
def kernelRelease (kernel : Str) : Option Str :=
  ["vmlinuz-".toList, "Image-".toList, "vmlinux-".toList, "kernel-".toList].findSome? fun p =>
    Str.stripPrefix p (Str.afterLast '/' kernel)

/-- `entry_kernel_releases`: the release in the file name, then the version of the entry. -/
def entryKernelReleases (e : BootEntry) : List Str :=
  let named := (e.kernel.bind kernelRelease).toList
  match e.version with
  | some v => if v ∈ named then named else named ++ [v]
  | none => named

/-- `kconfig_enabled`. -/
def kconfigEnabled (data : Bytes) (name : Str) : Bool :=
  (Str.lines (Utf8.fromLossy data)).any fun l => Str.trim l == name ++ "=y".toList

/-- `dma_restricted_pool`: none if there is no config to read. -/
def dmaRestrictedPool (fs : FileSystem) (e : BootEntry) : Option Bool :=
  (entryKernelReleases e).findSome? fun rel =>
    bootPrefixes.findSome? fun bootPrefix =>
      match fs.readFile (bootPrefix ++ "/config-".toList ++ rel) with
      | .ok data => some (kconfigEnabled data "CONFIG_DMA_RESTRICTED_POOL".toList)
      | .error _ => none

end BootExtractor.Boot
