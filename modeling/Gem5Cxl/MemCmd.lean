import Gem5Cxl.Basic
/-!
# MemCmd — the packet commands and their attribute table (`mem/packet.hh`, `mem/packet.cc`)

The two deprecated message slots of the table have no enumerator and no row here.
-/
namespace Gem5

inductive MemCmd where
  | invalidCmd
  | readReq
  | readResp
  | readRespWithInvalidate
  | writeReq
  | writeResp
  | writeCompleteResp
  | writebackDirty
  | writebackClean
  | writeClean
  | cleanEvict
  | softPFReq
  | softPFExReq
  | hardPFReq
  | softPFResp
  | hardPFResp
  | writeLineReq
  | upgradeReq
  | scUpgradeReq
  | upgradeResp
  | scUpgradeFailReq
  | upgradeFailResp
  | readExReq
  | readExResp
  | readCleanReq
  | readSharedReq
  | loadLockedReq
  | storeCondReq
  | storeCondFailReq
  | storeCondResp
  | lockedRMWReadReq
  | lockedRMWReadResp
  | lockedRMWWriteReq
  | lockedRMWWriteResp
  | swapReq
  | swapResp
  | memFenceReq
  | memSyncReq
  | memSyncResp
  | memFenceResp
  | cleanSharedReq
  | cleanSharedResp
  | cleanInvalidReq
  | cleanInvalidResp
  | invalidDestError
  | badAddressError
  | readError
  | writeError
  | functionalReadError
  | functionalWriteError
  | printReq
  | flushReq
  | invalidateReq
  | invalidateResp
  | htmReq
  | htmReqResp
  | htmAbort
  | tlbiExtSync
deriving DecidableEq, Repr

namespace MemCmd

inductive Attribute where
  | isRead
  | isWrite
  | isUpgrade
  | isInvalidate
  | isClean
  | needsWritable
  | isRequest
  | isResponse
  | needsResponse
  | isEviction
  | isSWPrefetch
  | isHWPrefetch
  | isLlsc
  | isLockedRMW
  | hasData
  | isError
  | isPrint
  | isFlush
  | fromCache
deriving DecidableEq, Repr

open Attribute in
def attributes : MemCmd → List Attribute
  | .invalidCmd => []
  | .readReq => [isRead, isRequest, needsResponse]
  | .readResp => [isRead, isResponse, hasData]
  | .readRespWithInvalidate => [isRead, isResponse, hasData, isInvalidate]
  | .writeReq => [isWrite, needsWritable, isRequest, needsResponse, hasData]
  | .writeResp => [isWrite, isResponse]
  | .writeCompleteResp => [isWrite, isResponse]
  | .writebackDirty => [isWrite, isRequest, isEviction, hasData, fromCache]
  | .writebackClean => [isWrite, isRequest, isEviction, hasData, fromCache]
  | .writeClean => [isWrite, isRequest, hasData, fromCache]
  | .cleanEvict => [isRequest, isEviction, fromCache]
  | .softPFReq => [isRead, isRequest, isSWPrefetch, needsResponse]
  | .softPFExReq => [isRead, needsWritable, isInvalidate, isRequest, isSWPrefetch, needsResponse]
  | .hardPFReq => [isRead, isRequest, isHWPrefetch, needsResponse, fromCache]
  | .softPFResp => [isRead, isResponse, isSWPrefetch, hasData]
  | .hardPFResp => [isRead, isResponse, isHWPrefetch, hasData]
  | .writeLineReq => [isWrite, needsWritable, isRequest, needsResponse, hasData]
  | .upgradeReq => [isInvalidate, needsWritable, isUpgrade, isRequest, needsResponse, fromCache]
  | .scUpgradeReq => [isInvalidate, needsWritable, isUpgrade, isLlsc, isRequest, needsResponse, fromCache]
  | .upgradeResp => [isUpgrade, isResponse]
  | .scUpgradeFailReq => [isRead, needsWritable, isInvalidate, isLlsc, isRequest, needsResponse, fromCache]
  | .upgradeFailResp => [isRead, isResponse, hasData]
  | .readExReq => [isRead, needsWritable, isInvalidate, isRequest, needsResponse, fromCache]
  | .readExResp => [isRead, isResponse, hasData]
  | .readCleanReq => [isRead, isRequest, needsResponse, fromCache]
  | .readSharedReq => [isRead, isRequest, needsResponse, fromCache]
  | .loadLockedReq => [isRead, isLlsc, isRequest, needsResponse]
  | .storeCondReq => [isWrite, needsWritable, isLlsc, isRequest, needsResponse, hasData]
  | .storeCondFailReq => [isWrite, needsWritable, isLlsc, isRequest, needsResponse, hasData]
  | .storeCondResp => [isWrite, isLlsc, isResponse]
  | .lockedRMWReadReq => [isRead, isLockedRMW, needsWritable, isRequest, needsResponse]
  | .lockedRMWReadResp => [isRead, isLockedRMW, needsWritable, isResponse, hasData]
  | .lockedRMWWriteReq => [isWrite, isLockedRMW, needsWritable, isRequest, needsResponse, hasData]
  | .lockedRMWWriteResp => [isWrite, isLockedRMW, needsWritable, isResponse]
  | .swapReq => [isRead, isWrite, needsWritable, isRequest, hasData, needsResponse]
  | .swapResp => [isRead, isWrite, isResponse, hasData]
  | .memFenceReq => [isRequest, needsResponse]
  | .memSyncReq => [isRequest, needsResponse]
  | .memSyncResp => [isResponse]
  | .memFenceResp => [isResponse]
  | .cleanSharedReq => [isRequest, isClean, needsResponse, fromCache]
  | .cleanSharedResp => [isResponse, isClean]
  | .cleanInvalidReq => [isRequest, isInvalidate, isClean, needsResponse, fromCache]
  | .cleanInvalidResp => [isResponse, isInvalidate, isClean]
  | .invalidDestError => [isResponse, isError]
  | .badAddressError => [isResponse, isError]
  | .readError => [isRead, isResponse, isError]
  | .writeError => [isWrite, isResponse, isError]
  | .functionalReadError => [isRead, isResponse, isError]
  | .functionalWriteError => [isWrite, isResponse, isError]
  | .printReq => [isRequest, isPrint]
  | .flushReq => [isRequest, isFlush, needsWritable]
  | .invalidateReq => [isInvalidate, isRequest, needsWritable, needsResponse, fromCache]
  | .invalidateResp => [isInvalidate, isResponse]
  | .htmReq => [isRead, isRequest, needsResponse]
  | .htmReqResp => [isRead, isResponse]
  | .htmAbort => [isRead, isRequest]
  | .tlbiExtSync => [isRequest]

def responseCommand : MemCmd → MemCmd
  | .readReq => .readResp
  | .writeReq => .writeResp
  | .softPFReq => .softPFResp
  | .softPFExReq => .softPFResp
  | .hardPFReq => .hardPFResp
  | .writeLineReq => .writeResp
  | .upgradeReq => .upgradeResp
  | .scUpgradeReq => .upgradeResp
  | .scUpgradeFailReq => .upgradeFailResp
  | .readExReq => .readExResp
  | .readCleanReq => .readResp
  | .readSharedReq => .readResp
  | .loadLockedReq => .readResp
  | .storeCondReq => .storeCondResp
  | .storeCondFailReq => .storeCondResp
  | .lockedRMWReadReq => .lockedRMWReadResp
  | .lockedRMWWriteReq => .lockedRMWWriteResp
  | .swapReq => .swapResp
  | .memFenceReq => .memFenceResp
  | .memSyncReq => .memSyncResp
  | .cleanSharedReq => .cleanSharedResp
  | .cleanInvalidReq => .cleanInvalidResp
  | .invalidateReq => .invalidateResp
  | .htmReq => .htmReqResp
  | _ => .invalidCmd

def testCmdAttrib (c : MemCmd) (a : Attribute) : Bool := decide (a ∈ c.attributes)

def isRead (c : MemCmd) : Bool := c.testCmdAttrib .isRead
def isWrite (c : MemCmd) : Bool := c.testCmdAttrib .isWrite
def isInvalidate (c : MemCmd) : Bool := c.testCmdAttrib .isInvalidate
def isClean (c : MemCmd) : Bool := c.testCmdAttrib .isClean
def isRequest (c : MemCmd) : Bool := c.testCmdAttrib .isRequest
def isResponse (c : MemCmd) : Bool := c.testCmdAttrib .isResponse
def needsResponse (c : MemCmd) : Bool := c.testCmdAttrib .needsResponse
def isLLSC (c : MemCmd) : Bool := c.testCmdAttrib .isLlsc
def isError (c : MemCmd) : Bool := c.testCmdAttrib .isError
def fromCache (c : MemCmd) : Bool := c.testCmdAttrib .fromCache
def needsWritable (c : MemCmd) : Bool := c.testCmdAttrib .needsWritable
def isEviction (c : MemCmd) : Bool := c.testCmdAttrib .isEviction

def isWriteback (c : MemCmd) : Bool := c.testCmdAttrib .isEviction && c.testCmdAttrib .hasData

/-- **The table is closed under responses**: a command that needs a response is a request, and its response is a
response that needs none. -/
theorem responseCommand_spec (c : MemCmd) (h : c.needsResponse = true) :
    c.isRequest = true ∧ c.responseCommand.isResponse = true ∧ c.responseCommand.needsResponse = false := by
  cases c <;> first | exact ⟨rfl, rfl, rfl⟩ | exact absurd h (by decide)

end MemCmd
end Gem5
