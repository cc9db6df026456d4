import Pinhead.ByteStrings

/-!
# Filesystem requests and the router's answers

Every frontend turns a client message into at most one of these requests and
waits for one answer. The router task may be gone when the request is sent, or
drop the reply channel afterwards; both are answers here, next to the handler's
own result.
-/
namespace Pinhead.FsRequests
open ByteStrings

inductive FsOperation where
  | lookup | getAttr | setAttr | readDir | mkDir | rmDir | openDir | openFile | create
  | read | write | release | rename | unlink
  deriving DecidableEq, Repr

/-- Human-readable name, also the key under which a route registers a handler. -/
def FsOperation.asStr : FsOperation → String
  | .lookup => "lookup"
  | .getAttr => "getattr"
  | .setAttr => "setattr"
  | .readDir => "readdir"
  | .mkDir => "mkdir"
  | .rmDir => "rmdir"
  | .openDir => "opendir"
  | .openFile => "open"
  | .create => "create"
  | .read => "read"
  | .write => "write"
  | .release => "release"
  | .rename => "rename"
  | .unlink => "unlink"

structure Request where
  op : FsOperation
  path : String
  data : Bytes
  deriving DecidableEq, Repr

structure Response where
  data : Bytes
  matchedPattern : Option String := none
  hasChildren : Bool := false
  deriving DecidableEq, Repr

inductive Answer where
  | routerGone
  | handlerGone
  | reply (result : Except String Response)

/-- The handler accepted the request. -/
def Answer.accepted : Answer → Bool
  | .reply (.ok _) => true
  | _ => false

end Pinhead.FsRequests
