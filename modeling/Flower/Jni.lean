import Mathlib.Logic.Function.Defs
/-!
# `Flower.Jni` — the code the Android entry point returns

`Java_com_sllt_app_flower_SimpleVpnService_runFlower` (`flower-jni`) reads
its two paths, starts `flower` on a single-threaded runtime and returns an
`i32` to the Java caller: `0` when `flower::start` returns, else
`to_errno` of the error.

`flower::Error` is not in this repository; its variants are the arms of
`to_errno`, `Watcher` only in the `auto-reload` build.  No arm reads a
payload, so an error is its variant here.
-/

namespace Flower.Jni

/-- The variants of `flower::Error` that `to_errno` matches. -/
inductive Error
  | config
  | noConfigFile
  | io
  | watcher
  | asyncChannelSend
  | syncChannelRecv
  | runtimeManager
  deriving DecidableEq, Repr

/-- No error. -/
def errOk : Int := 0
/-- Config path error. -/
def errConfigPath : Int := 1
/-- Config parsing error. -/
def errConfig : Int := 2
/-- IO error. -/
def errIo : Int := 3
/-- Config file watcher error. -/
def errWatcher : Int := 4
/-- Async channel send error. -/
def errAsyncChannelSend : Int := 5
/-- Sync channel receive error. -/
def errSyncChannelRecv : Int := 6
/-- Runtime manager error. -/
def errRuntimeManager : Int := 7
/-- No associated config file. -/
def errNoConfigFile : Int := 8

/-- `to_errno`. -/
def toErrno : Error → Int
  | .config => errConfig
  | .noConfigFile => errNoConfigFile
  | .io => errIo
  | .watcher => errWatcher
  | .asyncChannelSend => errAsyncChannelSend
  | .syncChannelRecv => errSyncChannelRecv
  | .runtimeManager => errRuntimeManager

/-- The entry point's return value, from what `flower::start` returned. -/
def runFlower (start : Except Error Unit) : Int :=
  match start with
  | .error e => toErrno e
  | .ok _ => 0

end Flower.Jni
