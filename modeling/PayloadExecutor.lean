import PayloadExecutor.Codec
import PayloadExecutor.Executor
import PayloadExecutor.Pipeline
import PayloadExecutor.Isa
import PayloadExecutor.Refinement
import PayloadExecutor.Programs
import PayloadExecutor.Scratchpad
import PayloadExecutor.Status
import PayloadExecutor.Termination
import PayloadExecutor.Handover
import PayloadExecutor.Bus
import PayloadExecutor.Reads
