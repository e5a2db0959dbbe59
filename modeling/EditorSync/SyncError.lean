namespace EditorSync

inductive SyncError where
  | invalidDelta (path reason : String)
  | invalidEnvelope (reason : String)
  | unknownWorkingCopy (path : String)
  | staleDelta (path : String) (seq last : Nat)
  | sequenceGap (path : String) (expected got : Nat)
  | transportUnavailable (reason : String)
  | projectResolution (path : String)
  | pathOutsideWorkspace (path : String)
  | io (path reason : String)
  | engine (reason : String)
  deriving DecidableEq, Repr

namespace SyncError

def kind : SyncError → String
  | invalidDelta .. => "invalid_delta"
  | invalidEnvelope _ => "invalid_envelope"
  | unknownWorkingCopy _ => "unknown_working_copy"
  | staleDelta .. => "stale_delta"
  | sequenceGap .. => "sequence_gap"
  | transportUnavailable _ => "transport_unavailable"
  | projectResolution _ => "project_resolution"
  | pathOutsideWorkspace _ => "path_outside_workspace"
  | io .. => "io"
  | engine _ => "engine"

def message : SyncError → String
  | invalidDelta path reason => s!"invalid delta for {path}: {reason}"
  | invalidEnvelope reason => s!"invalid envelope: {reason}"
  | unknownWorkingCopy path => s!"no working copy for {path}"
  | staleDelta path seq last => s!"stale delta for {path}: seq {seq} <= last applied {last}"
  | sequenceGap path expected got =>
    s!"sequence gap for {path}: expected {expected}, got {got}"
  | transportUnavailable reason => s!"transport unavailable: {reason}"
  | projectResolution path => s!"cannot resolve project for {path}"
  | pathOutsideWorkspace path => s!"path is outside the workspace: {path}"
  | io path reason => s!"I/O error on {path}: {reason}"
  | engine reason => s!"reconciliation failed: {reason}"

end SyncError
end EditorSync
