/-!
# Kinds of input and output faults

The kinds that faults of the operating system and of the library fall into, each with the name and
the description it is written with.
-/

namespace LogFollower

/-- What sort of thing went wrong. -/
inductive FaultKind
  | addrInUse | addrNotAvailable | alreadyExists | argumentListTooLong | brokenPipe
  | connectionAborted | connectionRefused | connectionReset | crossesDevices | deadlock
  | directoryNotEmpty | executableFileBusy | fileTooLarge | filesystemLoop | hostUnreachable
  | inProgress | interrupted | invalidData | invalidFilename | invalidInput | isADirectory
  | networkDown | networkUnreachable | notADirectory | notConnected | notFound | notSeekable
  | other | outOfMemory | permissionDenied | quotaExceeded | readOnlyFilesystem | resourceBusy
  | staleNetworkFileHandle | storageFull | timedOut | tooManyLinks | uncategorized
  | unexpectedEof | unsupported | wouldBlock | writeZero
  deriving DecidableEq, Repr

namespace FaultKind

/-- The name and the description of a kind. -/
def spelling : FaultKind → String × String
  | addrInUse => ("AddrInUse", "address in use")
  | addrNotAvailable => ("AddrNotAvailable", "address not available")
  | alreadyExists => ("AlreadyExists", "entity already exists")
  | argumentListTooLong => ("ArgumentListTooLong", "argument list too long")
  | brokenPipe => ("BrokenPipe", "broken pipe")
  | connectionAborted => ("ConnectionAborted", "connection aborted")
  | connectionRefused => ("ConnectionRefused", "connection refused")
  | connectionReset => ("ConnectionReset", "connection reset")
  | crossesDevices => ("CrossesDevices", "cross-device link or rename")
  | deadlock => ("Deadlock", "deadlock")
  | directoryNotEmpty => ("DirectoryNotEmpty", "directory not empty")
  | executableFileBusy => ("ExecutableFileBusy", "executable file busy")
  | fileTooLarge => ("FileTooLarge", "file too large")
  | filesystemLoop =>
    ("FilesystemLoop", "filesystem loop or indirection limit (e.g. symlink loop)")
  | hostUnreachable => ("HostUnreachable", "host unreachable")
  | inProgress => ("InProgress", "in progress")
  | interrupted => ("Interrupted", "operation interrupted")
  | invalidData => ("InvalidData", "invalid data")
  | invalidFilename => ("InvalidFilename", "invalid filename")
  | invalidInput => ("InvalidInput", "invalid input parameter")
  | isADirectory => ("IsADirectory", "is a directory")
  | networkDown => ("NetworkDown", "network down")
  | networkUnreachable => ("NetworkUnreachable", "network unreachable")
  | notADirectory => ("NotADirectory", "not a directory")
  | notConnected => ("NotConnected", "not connected")
  | notFound => ("NotFound", "entity not found")
  | notSeekable => ("NotSeekable", "seek on unseekable file")
  | other => ("Other", "other error")
  | outOfMemory => ("OutOfMemory", "out of memory")
  | permissionDenied => ("PermissionDenied", "permission denied")
  | quotaExceeded => ("QuotaExceeded", "quota exceeded")
  | readOnlyFilesystem =>
    ("ReadOnlyFilesystem", "read-only filesystem or storage medium")
  | resourceBusy => ("ResourceBusy", "resource busy")
  | staleNetworkFileHandle => ("StaleNetworkFileHandle", "stale network file handle")
  | storageFull => ("StorageFull", "no storage space")
  | timedOut => ("TimedOut", "timed out")
  | tooManyLinks => ("TooManyLinks", "too many links")
  | uncategorized => ("Uncategorized", "uncategorized error")
  | unexpectedEof => ("UnexpectedEof", "unexpected end of file")
  | unsupported => ("Unsupported", "unsupported")
  | wouldBlock => ("WouldBlock", "operation would block")
  | writeZero => ("WriteZero", "write zero")

def name (k : FaultKind) : String := k.spelling.1

/-- What a fault of the kind says when nothing else is known. -/
def description (k : FaultKind) : String := k.spelling.2

def all : List FaultKind :=
  [addrInUse, addrNotAvailable, alreadyExists, argumentListTooLong, brokenPipe,
    connectionAborted, connectionRefused, connectionReset, crossesDevices, deadlock,
    directoryNotEmpty, executableFileBusy, fileTooLarge, filesystemLoop, hostUnreachable,
    inProgress, interrupted, invalidData, invalidFilename, invalidInput, isADirectory,
    networkDown, networkUnreachable, notADirectory, notConnected, notFound, notSeekable,
    other, outOfMemory, permissionDenied, quotaExceeded, readOnlyFilesystem, resourceBusy,
    staleNetworkFileHandle, storageFull, timedOut, tooManyLinks, uncategorized,
    unexpectedEof, unsupported, wouldBlock, writeZero]

theorem mem_all (k : FaultKind) : k ∈ all := by cases k <;> decide

def ofName? (s : String) : Option FaultKind := all.find? (·.name = s)

theorem ofName?_name (k : FaultKind) : ofName? k.name = some k := by
  cases k <;> decide +kernel

end FaultKind
end LogFollower
